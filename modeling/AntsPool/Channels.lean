import AntsPool.ClosedQueue

/-!
# No send blocks

A worker's channel is a `sync_channel` of capacity `worker_chan_cap()`: one slot, or
none on a single processor, where a send waits for the receiver. The channels of the
model have no bound. None is needed: whoever is about to send to a worker has it to
itself, so the channel is empty and the worker's thread is at its receive. In
particular a reset, which sends while it holds the spin lock, holds nobody up.
-/
namespace AntsPool
open Interleaving ListTotals

/-- `worker_chan_cap()`. -/
def workerChanCap (parallelism : ℕ) : ℕ := if parallelism = 1 then 0 else 1

/-- Whether a thread is at the receive of worker `w`. -/
def Thread.receives (w : ℕ) : Thread → Bool
  | .work ⟨v, _, .recv⟩ => v = w
  | _ => false

/-- Whether a `send` on the channel of worker `w` returns at once. Without a buffer it
needs a receiver that has not been given anything else. -/
def accepts (cap : ℕ) (x : Config) (w : ℕ) : Bool :=
  if cap = 0 then (x.shared.channel w).isEmpty && x.threads.any (Thread.receives w)
  else (x.shared.channel w).length < cap

/-- The workers to whose channels a thread sends in its next step. -/
def Thread.sendsTo (s : PoolCore) : Thread → List ℕ
  | .submit ⟨_, _, .input w⟩ => [w]
  | .purge (.finish _ (w :: _) _) => [w]
  | .release ⟨_, _, _, .reset⟩ => s.workers.items
  | _ => []

/-- Every send finds room, in channels of the given capacity. -/
def sendsFit (cap : ℕ) (x : Config) : Move → Prop
  | .call _ => True
  | .step i _ => ∀ t ∈ x.threads[i]?, ∀ w ∈ t.sendsTo x.shared, accepts cap x w = true

/-- Who sends to a worker has it and does not serve it. -/
theorem Thread.sendsTo_cases {s : PoolCore} {t : Thread} {w : ℕ} (h : w ∈ t.sendsTo s) :
    w ∈ s.workers.items ∨ (1 ≤ t.holds w ∧ t.serves w = false) := by
  cases t with
  | submit t =>
      obtain ⟨p, b, pc⟩ := t
      cases pc with
      | input v =>
          obtain rfl := List.mem_singleton.mp h
          exact .inr ⟨by simp [holds], rfl⟩
      | _ => cases h
  | purge t =>
      cases t with
      | finish c stale b =>
          cases stale with
          | nil => cases h
          | cons v rest =>
              obtain rfl := List.mem_singleton.mp h
              exact .inr ⟨by simp [holds], rfl⟩
      | _ => cases h
  | release t =>
      obtain ⟨m, p, k, pc⟩ := t
      cases pc with
      | reset => exact .inl h
      | _ => cases h
  | _ => cases h

/-- A thread that serves a worker without having it is at the receive. -/
theorem Thread.receives_of_serves {t : Thread} {w : ℕ} (hs : t.serves w = true)
    (hh : t.holds w = 0) : t.receives w = true := by
  cases t with
  | submit t =>
      obtain ⟨p, b, pc⟩ := t
      cases pc with
      | run v => simp_all [serves, holds]
      | _ => cases hs
  | work t =>
      obtain ⟨v, b, pc⟩ := t
      cases pc <;> simp_all [serves, holds, receives, WorkerPc.serves, WorkerPc.owns]
  | _ => cases hs

namespace Run
variable {o : Options} {G : Guard} {x : Config}

/-- Who has a worker without serving it finds the channel empty and a receiver waiting. -/
theorem receiver (h : Run o G x) {w : ℕ}
    (hw : w ∈ x.shared.workers.items ∨ ∃ t ∈ x.threads, 1 ≤ t.holds w ∧ t.serves w = false) :
    x.shared.channel w = [] ∧ ∃ t ∈ x.threads, t.receives w = true := by
  have hle := h.place_le w
  have hexist := h.places_eq w
  have hserve := h.serves_eq w
  have hone := x.shared.existing_le_one w
  have hthreads := total_nonneg (l := x.threads) (f := fun t : Thread => (t.holds w : ℤ))
    fun t _ => Int.natCast_nonneg _
  have hplace : 1 ≤ x.shared.workers.items.count w ∨
      1 ≤ total (fun t : Thread => (t.holds w : ℤ)) x.threads := by
    rcases hw with hq | ⟨t, ht, hhold, _⟩
    · exact .inl (List.one_le_count_iff.mpr hq)
    · have := le_total (f := fun t : Thread => (t.holds w : ℤ)) (fun _ => Int.natCast_nonneg _) ht
      exact .inr (by omega)
  unfold places at hle hexist
  have hempty : x.shared.channel w = [] := List.eq_nil_of_length_eq_zero (by omega)
  refine ⟨hempty, ?_⟩
  have hcount : 0 < x.threads.countP (Thread.serves w) := by omega
  obtain ⟨u, hu, hsu⟩ := List.countP_pos_iff.mp hcount
  refine ⟨u, hu, Thread.receives_of_serves hsu ?_⟩
  by_contra hne
  rcases hw with hq | ⟨t, ht, hhold, hst⟩
  · have hqueue := List.one_le_count_iff.mpr hq
    have := le_total (f := fun t : Thread => (t.holds w : ℤ)) (fun _ => Int.natCast_nonneg _) hu
    omega
  · obtain ⟨i, hi⟩ := List.mem_iff_getElem?.mp ht
    obtain ⟨j, hj⟩ := List.mem_iff_getElem?.mp hu
    cases h.holder_eq hi hj hhold (by omega)
    cases Option.some.inj (hi.symm.trans hj)
    cases hst.symm.trans hsu

/-- A send returns at once, in channels of any capacity. -/
theorem accepts_of_sendsTo (h : Run o G x) (cap : ℕ) {t : Thread} (ht : t ∈ x.threads) {w : ℕ}
    (hw : w ∈ t.sendsTo x.shared) : accepts cap x w = true := by
  obtain ⟨hempty, hrecv⟩ := h.receiver
    ((Thread.sendsTo_cases hw).imp_right fun hhold => ⟨t, ht, hhold⟩)
  unfold accepts
  split_ifs with hcap
  · rw [hempty, List.isEmpty_nil, Bool.true_and, List.any_eq_true]
    exact hrecv
  · rw [hempty, List.length_nil, decide_eq_true_eq]
    exact Nat.pos_of_ne_zero hcap

/-- One step sends to a worker at most once. -/
theorem sendsTo_nodup (h : Run o G x) (t : Thread) : (t.sendsTo x.shared).Nodup := by
  unfold Thread.sendsTo
  split
  · exact List.pairwise_singleton _ _
  · exact List.pairwise_singleton _ _
  · exact h.queue_nodup
  · exact List.Pairwise.nil

end Run

/-- A caller, the scavenger and a reset find room in channels of capacity
`worker_chan_cap()`, and without a buffer a receiver, for each message that they are about
to send, and no step sends two to one worker. So the runs with such channels are those with
unbounded ones. -/
theorem sends_never_block {o : Options} {G : Guard} (parallelism : ℕ) (x : Config) :
    (Run o G x → ∀ t ∈ x.threads, (t.sendsTo x.shared).Nodup ∧
      ∀ w ∈ t.sendsTo x.shared, accepts (workerChanCap parallelism) x w = true) ∧
    (Run o G x ↔ Run o (fun y m => G y m ∧ sendsFit (workerChanCap parallelism) y m) x) := by
  refine ⟨fun h t ht => ⟨h.sendsTo_nodup t, fun w hw => h.accepts_of_sendsTo _ ht hw⟩,
    fun h => ?_, fun h => h.weaken fun _ _ hg => hg.1⟩
  induction h with
  | init hx => exact .init hx
  | @move y z m hy hg hf ih =>
      refine .move m ih ⟨hg, ?_⟩ hf
      cases m with
      | call c => trivial
      | step i a =>
          exact fun t ht w hw => Run.accepts_of_sendsTo hy _ (List.mem_of_getElem? ht) hw

end AntsPool
