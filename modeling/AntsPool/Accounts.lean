import AntsPool.PoolRuns

/-!
# What the counters of a pool count

Four ledgers, each keeping its balance in every run. The spin lock is held
exactly while one thread is inside a critical section. `running` counts the
worker threads that have not passed the decrement of their epilogue. `waiting`
counts the callers between the increment and the decrement around `Cond::wait`,
and `parked` those registered with the condition variable.

A step that touches neither the counter nor what the thread counts for keeps a
ledger by definition; the other steps are named in the proofs.
-/
namespace AntsPool
open Interleaving ListTotals

def SubmitPc.holdsLock : SubmitPc → Bool
  | .readCap | .readRunning _ | .spawn | .run _ | .park | .recheck => true
  | _ => false

/-- Whether a thread is inside a critical section that spans several steps. -/
def Thread.holdsLock : Thread → Bool
  | .submit t => t.pc.holdsLock
  | .work ⟨_, _, .insert⟩ => true
  | _ => false

/-- The part of a worker's thread before its decrement of `running`. -/
def WorkerPc.counted : WorkerPc → Bool
  | .exitClosed | .latchFetch | .latchClose _ | .recycle | .report | .signal | .returned
  | .unwound => false
  | _ => true

def Thread.counted : Thread → Bool
  | .work t => t.pc.counted
  | _ => false

/-- Whether a caller is between the two updates of `waiting`. -/
def Thread.waits : Thread → Bool
  | .submit ⟨_, _, .park⟩ | .submit ⟨_, _, .parked _⟩ | .submit ⟨_, _, .woken⟩ => true
  | _ => false

def Thread.parks : Thread → Bool
  | .submit ⟨_, _, .parked _⟩ => true
  | _ => false

theorem Thread.background.idle {t : Thread} (h : t.background) :
    t.holdsLock = false ∧ t.counted = false ∧ t.waits = false ∧ t.parks = false := by
  rcases h with rfl | rfl | rfl <;> exact ⟨rfl, rfl, rfl, rfl⟩

def lockLedger : Ledger PoolCore Thread :=
  .counting (fun s => if s.locked then 1 else 0) Thread.holdsLock

def runningLedger : Ledger PoolCore Thread := .counting PoolCore.running Thread.counted

def waitingLedger : Ledger PoolCore Thread := .counting PoolCore.waiting Thread.waits

def parkedLedger : Ledger PoolCore Thread := .counting (fun s => s.cond.parked) Thread.parks

theorem lockLedger_kept (o : Options) :
    lockLedger.Kept (program o) (fun s t => t.holdsLock = true → s.locked = true) := by
  refine kept_of_steps ?_ ?_
  · intro i c
    cases c <;> rfl
  · intro i s t s' t' new hV h
    cases h with
    | submit h =>
        cases h with
        | detachNone hl =>
            simp [lockLedger, Ledger.counting, Thread.holdsLock, SubmitPc.holdsLock, hl]
        | woken hl =>
            simp [lockLedger, Ledger.counting, Thread.holdsLock, SubmitPc.holdsLock, hl]
        | recheckNone =>
            simp [lockLedger, Ledger.counting, Thread.holdsLock, SubmitPc.holdsLock, hV rfl]
        | overload | run | parkLeaves | parkBlocks | recheckClosed | recheckSome =>
            simp [lockLedger, Ledger.counting, Thread.holdsLock, SubmitPc.holdsLock, hV rfl]
        | _ => exact add_zero _
    | work h =>
        rw [total_nil, add_zero]
        cases h with
        | lockOpened hl => simp [lockLedger, Ledger.counting, Thread.holdsLock, hl]
        | insertOk | insertFull =>
            simp [lockLedger, Ledger.counting, Thread.holdsLock, hV rfl]
        | _ => rfl
    | release h =>
        rw [total_nil, add_zero]
        cases h with
        | reset =>
            obtain ⟨_, _, hr, _⟩ := Release.reset_frame i s
            rw [hr]
            rfl
        | _ => rfl
    | purge h => cases h <;> exact add_zero _
    | ticktock h => cases h <;> exact add_zero _
    | reboot h => cases h <;> exact add_zero _
    | tune h => cases h <;> exact add_zero _
    | clock => exact add_zero _

theorem runningLedger_kept (o : Options) : runningLedger.Kept (program o) fun _ _ => True := by
  refine kept_of_steps ?_ ?_
  · intro i c
    cases c <;> rfl
  · intro i s t s' t' new _ h
    cases h with
    | submit h =>
        cases h with
        | run =>
            simp [runningLedger, Ledger.counting, Thread.counted, WorkerPc.counted]
        | _ => exact add_zero _
    | work h =>
        rw [total_nil, add_zero]
        cases h with
        | exitLast | exitMore =>
            simp [runningLedger, Ledger.counting, Thread.counted, WorkerPc.counted, sub_eq_add_neg]
        | _ => rfl
    | release h =>
        rw [total_nil, add_zero]
        cases h with
        | reset =>
            obtain ⟨_, _, hr, _⟩ := Release.reset_frame i s
            rw [hr]
            rfl
        | _ => rfl
    | purge h => cases h <;> exact add_zero _
    | ticktock h => cases h <;> exact add_zero _
    | reboot h => cases h <;> exact add_zero _
    | tune h => cases h <;> exact add_zero _
    | clock => exact add_zero _

theorem waitingLedger_kept (o : Options) : waitingLedger.Kept (program o) fun _ _ => True := by
  refine kept_of_steps ?_ ?_
  · intro i c
    cases c <;> rfl
  · intro i s t s' t' new _ h
    cases h with
    | submit h =>
        cases h with
        | enlist | woken =>
            simp [waitingLedger, Ledger.counting, Thread.waits, sub_eq_add_neg]
        | _ => exact add_zero _
    | work h => cases h <;> exact add_zero _
    | release h =>
        rw [total_nil, add_zero]
        cases h with
        | reset =>
            obtain ⟨_, _, hr, _⟩ := Release.reset_frame i s
            rw [hr]
            rfl
        | _ => rfl
    | purge h => cases h <;> exact add_zero _
    | ticktock h => cases h <;> exact add_zero _
    | reboot h => cases h <;> exact add_zero _
    | tune h => cases h <;> exact add_zero _
    | clock => exact add_zero _

theorem parkedLedger_kept (o : Options) :
    parkedLedger.Kept (program o) (fun s t => t.parks = true → 0 < s.cond.parked) := by
  refine kept_of_steps ?_ ?_
  · intro i c
    cases c <;> rfl
  · intro i s t s' t' new hV h
    cases h with
    | submit h =>
        cases h with
        | parkLeaves hp =>
            have hc := (Cond.poll_some hp).2.1
            simp [parkedLedger, Ledger.counting, Thread.parks, hc]
        | parkBlocks => simp [parkedLedger, Ledger.counting, Thread.parks]
        | leave hp =>
            have hc := (Cond.poll_some hp).2.1
            have hpos := hV rfl
            simp only [parkedLedger, Ledger.counting, Thread.parks, hc, total_nil, if_true,
              Bool.false_eq_true, if_false]
            omega
        | _ => exact add_zero _
    | work h =>
        rw [total_nil, add_zero]
        cases h with
        | refuse | insertOk | signal => simp [parkedLedger, Ledger.counting, Thread.parks]
        | _ => rfl
    | purge h =>
        rw [total_nil, add_zero]
        cases h with
        | broadcast => simp [parkedLedger, Ledger.counting, Thread.parks]
        | _ => rfl
    | release h =>
        rw [total_nil, add_zero]
        cases h with
        | reset =>
            obtain ⟨_, _, hr, _⟩ := Release.reset_frame i s
            rw [hr]
            rfl
        | broadcast => simp [parkedLedger, Ledger.counting, Thread.parks]
        | _ => rfl
    | tune h =>
        rw [total_nil, add_zero]
        cases h with
        | signal | broadcast => simp [parkedLedger, Ledger.counting, Thread.parks]
        | _ => rfl
    | ticktock h => cases h <;> exact add_zero _
    | reboot h => cases h <;> exact add_zero _
    | clock => exact add_zero _

namespace Run
variable {o : Options} {G : Guard} {x : Config}

theorem lock_eq (h : Run o G x) :
    (if x.shared.locked then 1 else 0 : ℤ) = x.threads.countP Thread.holdsLock := by
  refine (lockLedger_kept o).count_eq ?_ ?_ h
  · intro y _ hy t ht hhold
    have hpos := List.countP_pos_iff.mpr ⟨t, ht, hhold⟩
    by_contra hn
    simp only [hn, if_false] at hy
    omega
  · intro y hy
    exact ⟨by simp [hy.fresh.locked], fun t ht => (hy.fresh.threads t ht).idle.1⟩

/-- A thread inside a critical section has the lock. -/
theorem locked_of_holds (h : Run o G x) {t : Thread} (ht : t ∈ x.threads)
    (hold : t.holdsLock = true) : x.shared.locked = true := by
  have heq := h.lock_eq
  have hpos := List.countP_pos_iff.mpr ⟨t, ht, hold⟩
  by_contra hn
  simp only [hn, if_false] at heq
  omega

/-- No two threads are inside a critical section. -/
theorem holder_unique (h : Run o G x) {i j : ℕ} {t u : Thread} (hi : x.threads[i]? = some t)
    (hj : x.threads[j]? = some u) (ht : t.holdsLock = true) (hu : u.holdsLock = true) : i = j := by
  by_contra hij
  have htwo := add_le_total (f := fun t : Thread => if t.holdsLock then 1 else 0)
    (fun t => by split <;> omega) hij hi hj
  have heq := h.lock_eq
  rw [← total_indicator] at heq
  simp only [ht, hu, if_true] at htwo
  split at heq <;> omega

theorem running_eq (h : Run o G x) : x.shared.running = x.threads.countP Thread.counted := by
  refine (runningLedger_kept o).count_eq (fun _ _ _ _ _ => trivial) ?_ h
  intro y hy
  exact ⟨hy.fresh.running, fun t ht => (hy.fresh.threads t ht).idle.2.1⟩

theorem running_nonneg (h : Run o G x) : 0 ≤ x.shared.running := by
  rw [h.running_eq]
  omega

theorem running_pos (h : Run o G x) {t : Thread} (ht : t ∈ x.threads) (hc : t.counted = true) :
    0 < x.shared.running := by
  have hpos := List.countP_pos_iff.mpr ⟨t, ht, hc⟩
  rw [h.running_eq]
  omega

theorem waiting_eq (h : Run o G x) : x.shared.waiting = x.threads.countP Thread.waits := by
  refine (waitingLedger_kept o).count_eq (fun _ _ _ _ _ => trivial) ?_ h
  intro y hy
  exact ⟨hy.fresh.waiting, fun t ht => (hy.fresh.threads t ht).idle.2.2.1⟩

theorem parked_eq (h : Run o G x) : x.shared.cond.parked = x.threads.countP Thread.parks := by
  have heq : (x.shared.cond.parked : ℤ) = x.threads.countP Thread.parks := by
    refine (parkedLedger_kept o).count_eq ?_ ?_ h
    · intro y _ hy t ht hpark
      have hpos := List.countP_pos_iff.mpr ⟨t, ht, hpark⟩
      omega
    · intro y hy
      exact ⟨by rw [hy.fresh.cond]; rfl, fun t ht => (hy.fresh.threads t ht).idle.2.2.2⟩
  exact_mod_cast heq

theorem parked_pos (h : Run o G x) {t : Thread} (ht : t ∈ x.threads) (hp : t.parks = true) :
    0 < x.shared.cond.parked := by
  rw [h.parked_eq]
  exact List.countP_pos_iff.mpr ⟨t, ht, hp⟩

end Run

end AntsPool
