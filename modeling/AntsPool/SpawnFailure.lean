import AntsPool.Barrier
import AntsPool.Traces

/-!
# A worker thread that does not start

`run` counts the worker before it asks the system for a thread. When the system
refuses, `expect` panics and the caller unwinds; the guard of the spin lock is the
only thing that is put back. For everybody else such a call is one whose worker's
thread takes no step, so the runs here are runs of the pool in which some threads
stand still.
-/
namespace AntsPool
open Interleaving ListTotals

/-- A thread of the pool, or what is left of a spawn that failed: the caller that
unwound, and the thread that it did not get. -/
inductive Attempt
  | live (t : Thread)
  | unwound (payload : Payload) (waited : Bool) (worker : ℕ)
  | unstarted (worker : ℕ)
deriving DecidableEq

/-- `run` when `spawn` returns an error, up to the end of the unwinding. -/
def Submit.runFails (s : PoolCore) (t : Submit) (worker : ℕ) :
    PoolCore × Attempt × List Attempt :=
  ({ s with running := s.running + 1, locked := false },
    .unwound t.payload t.waited worker, [.unstarted worker])

/-- The worker that a caller is about to start, when the system refuses the thread. -/
def Thread.refused (t : Thread) (env : Env) : Option (Submit × ℕ) :=
  match t, env with
  | .submit ⟨p, b, .run w⟩, .fault => some (⟨p, b, .run w⟩, w)
  | _, _ => none

def Attempt.next (o : Options) (s : PoolCore) (i : ℕ) (u : Attempt) (env : Env) :
    Option (PoolCore × Attempt × List Attempt) :=
  match u with
  | .live t =>
      match t.refused env with
      | some (t, w) => some (Submit.runFails s t w)
      | none => (t.next o s i env).map fun r => (r.1, .live r.2.1, r.2.2.map .live)
  | .unwound _ _ _ | .unstarted _ => none

/-- The program of a pool on a system that may refuse threads. -/
def spawning (o : Options) : Program PoolCore Attempt Call Env where
  start i c := .live (c.start i)
  next := Attempt.next o

abbrev SpawnConfig := Interleaving.Config PoolCore Attempt

def SpawnStarts (o : Options) (x : SpawnConfig) : Prop := ∃ z, Starts o z ∧ x = z.map .live

abbrev SpawnRun (o : Options) (x : SpawnConfig) : Prop :=
  (spawning o).Reach (SpawnStarts o) (fun _ _ => True) x

/-- The runs with their moves. -/
abbrev SpawnTraced (o : Options) :
    List (Interleaving.Event PoolCore Attempt Call Env) → SpawnConfig → Prop :=
  (spawning o).Trace (SpawnStarts o) fun _ _ => True

theorem Thread.refused_some {t : Thread} {env : Env} {u : Submit} {w : ℕ}
    (h : t.refused env = some (u, w)) : ∃ p b, t = .submit ⟨p, b, .run w⟩ ∧ u = ⟨p, b, .run w⟩ := by
  unfold refused at h
  split at h
  · cases h
    exact ⟨_, _, rfl, rfl⟩
  · cases h

/-- A step is the failure of a spawn or a step of the pool. -/
theorem Attempt.next_cases {o : Options} {s : PoolCore} {i : ℕ} {u : Attempt} {env : Env}
    {r : PoolCore × Attempt × List Attempt} (h : u.next o s i env = some r) :
    (∃ p b w, u = .live (.submit ⟨p, b, .run w⟩) ∧ r = Submit.runFails s ⟨p, b, .run w⟩ w) ∨
    ∃ t s' t' new, u = .live t ∧ t.next o s i env = some (s', t', new) ∧
      r = (s', .live t', new.map .live) := by
  cases u with
  | live t =>
      simp only [next] at h
      split at h
      · rename_i u w hw
        obtain ⟨p, b, rfl, rfl⟩ := t.refused_some hw
        cases h
        exact .inl ⟨p, b, w, rfl, rfl⟩
      · obtain ⟨⟨s', t', new⟩, hr, rfl⟩ := Option.map_eq_some_iff.mp h
        exact .inr ⟨t, s', t', new, rfl, hr, rfl⟩
  | unwound | unstarted => cases h

/-! ## The run of the pool behind it -/

/-- The thread of the pool that an attempt stands for. The last two take no step. -/
def Attempt.stands : Attempt → Thread
  | .live t => t
  | .unwound p b w => .submit ⟨p, b, .input w⟩
  | .unstarted w => .work ⟨w, false, .recv⟩

theorem SpawnRun.stands {o : Options} {x : SpawnConfig} (hx : SpawnRun o x) :
    Run o anyMove (x.map Attempt.stands) := by
  refine Program.Reach.map ?_ (fun _ _ => rfl) ?_ (fun _ _ => trivial) hx
  · rintro y ⟨z, hz, rfl⟩
    simpa [Interleaving.Config.map, Function.comp_def, Attempt.stands] using hz
  · intro s i u env r hn
    rcases Attempt.next_cases hn with ⟨p, b, w, rfl, rfl⟩ | ⟨t, s', t', new, rfl, hr, rfl⟩
    · exact ⟨.ok, rfl⟩
    · have hnew : (new.map Attempt.live).map Attempt.stands = new := by
        simp [Function.comp_def, Attempt.stands]
      exact ⟨env, by rw [hnew]; exact hr⟩

/-! ## What the failing call leaves behind -/

/-- Whether the caller has a worker. -/
def SubmitPc.found : SubmitPc → Bool
  | .input _ | .ok _ => true
  | _ => false

/-- What the steps of a call have added to `f`, when it is `g` of the program counter
before the caller has a worker and the failing step brings it to `c`. -/
theorem gain_of_unwound {o : Options} {f : PoolCore → ℤ} {g : SubmitPc → ℤ} {c : ℤ}
    (start : g .checkClosed = 0)
    (step : ∀ x, SpawnRun o x → ∀ t s' t' new, .live (.submit t) ∈ x.threads →
      Submit.Step o x.shared t s' t' new → t'.pc.found = false →
      f s' + g t.pc = f x.shared + g t'.pc)
    (fails : ∀ x, SpawnRun o x → ∀ p b w, .live (.submit ⟨p, b, .run w⟩) ∈ x.threads →
      f { x.shared with running := x.shared.running + 1, locked := false } + g (.run w) =
        f x.shared + c)
    {h : List (Interleaving.Event PoolCore Attempt Call Env)} {x : SpawnConfig}
    (hx : SpawnTraced o h x) {i : ℕ} {p : Payload} {b : Bool} {w : ℕ}
    (hi : x.threads[i]? = some (.unwound p b w)) : gain f i h = c := by
  have hall := Program.Trace.tally_inv (v := fun e => f e.after.shared - f e.before.shared)
    (φ := fun u n => (∀ p b w, u = .unwound p b w → n = c) ∧
      ∀ t, u = .live (.submit t) → t.pc.found = false → n = g t.pc) ?_ ?_ ?_ ?_ hx hi
  · exact hall.1 p b w rfl
  · rintro y ⟨z, hz, rfl⟩ u hu
    obtain ⟨t, ht, rfl⟩ := List.mem_map.mp hu
    rcases hz.fresh.threads t ht with rfl | rfl | rfl <;> exact ⟨nofun, nofun⟩
  · intro j q
    refine ⟨nofun, ?_⟩
    rintro t ht -
    cases q with
    | submit stop =>
        cases ht
        exact start.symm
    | _ => cases ht
  · intro s j u a r hn v hv
    rcases Attempt.next_cases hn with ⟨q, d, k, rfl, rfl⟩ | ⟨t, s', t', new, rfl, hr, rfl⟩
    · obtain rfl := List.mem_singleton.mp hv
      exact ⟨nofun, nofun⟩
    · obtain ⟨t, ht, rfl⟩ := List.mem_map.mp hv
      rcases (program_step hr).new_cases ht with ⟨_, rfl⟩ | rfl | rfl <;> exact ⟨nofun, nofun⟩
  · intro y j u a r n hy hu hn ⟨_, hlive⟩
    have hmem := List.mem_of_getElem? hu
    rcases Attempt.next_cases hn with ⟨q, d, k, rfl, rfl⟩ | ⟨t, s', t', new, rfl, hr, rfl⟩
    · refine ⟨fun _ _ _ _ => ?_, nofun⟩
      have hn : n = g (.run k) := hlive _ rfl rfl
      have hfail := fails y hy q d k hmem
      change f { y.shared with running := y.shared.running + 1, locked := false } -
        f y.shared + n = c
      omega
    · refine ⟨nofun, ?_⟩
      rintro v hv hfound
      cases hv
      cases program_step hr with
      | submit hs =>
          have hn := hlive _ rfl (by cases hs <;> first | rfl | cases hfound)
          have hstep : f s' + g _ = f y.shared + g v.pc := step y hy _ _ _ _ hmem hs hfound
          change f s' - f y.shared + n = g v.pc
          omega

/-- Between the two updates of `waiting`. -/
def SubmitPc.waits : SubmitPc → Bool
  | .park | .parked _ | .woken => true
  | _ => false

/-- The spin lock as a number. -/
def PoolCore.lockCount (s : PoolCore) : ℤ := if s.locked then 1 else 0

namespace SpawnTraced
variable {o : Options} {h : List (Interleaving.Event PoolCore Attempt Call Env)}
  {x : SpawnConfig} {i : ℕ} {p : Payload} {b : Bool} {w : ℕ}

theorem gain_running (hx : SpawnTraced o h x) (hi : x.threads[i]? = some (.unwound p b w)) :
    gain PoolCore.running i h = 1 := by
  refine gain_of_unwound (g := fun _ => 0) rfl ?_ ?_ hx hi
  · intro y _ t s' t' new _ hs hfound
    cases hs with
    | run => cases hfound
    | _ => rfl
  · exact fun _ _ _ _ _ _ => add_zero _

theorem gain_waiting (hx : SpawnTraced o h x) (hi : x.threads[i]? = some (.unwound p b w)) :
    gain PoolCore.waiting i h = 0 := by
  refine gain_of_unwound (g := fun pc => if pc.waits then 1 else 0) rfl ?_ ?_ hx hi
  · intro y _ t s' t' new _ hs _
    cases hs with
    | enlist | woken => simp [SubmitPc.waits]
    | _ => rfl
  · exact fun _ _ _ _ _ _ => rfl

theorem gain_lock (hx : SpawnTraced o h x) (hi : x.threads[i]? = some (.unwound p b w)) :
    gain PoolCore.lockCount i h = 0 := by
  refine gain_of_unwound (g := fun pc => if pc.holdsLock then 1 else 0) rfl ?_ ?_ hx hi
  · intro y hy t s' t' new ht hs hfound
    -- a caller that has the lock is one that the pool knows to have it
    have hlock : t.pc.holdsLock = true → y.shared.locked = true := fun hold =>
      hy.stands.locked_of_holds (t := .submit t) (List.mem_map_of_mem ht) hold
    cases hs with
    | detachNone hl => simp [PoolCore.lockCount, SubmitPc.holdsLock, hl]
    | woken hl => simp [PoolCore.lockCount, SubmitPc.holdsLock, hl]
    | recheckNone | overload | parkLeaves | parkBlocks | recheckClosed =>
        simp [PoolCore.lockCount, SubmitPc.holdsLock, hlock rfl]
    | detachSome | run | recheckSome | input => cases hfound
    | _ => rfl
  · intro y hy p b w ht
    have hlock : y.shared.locked = true :=
      hy.stands.locked_of_holds (t := .submit ⟨p, b, .run w⟩) (List.mem_map_of_mem ht) rfl
    simp [PoolCore.lockCount, SubmitPc.holdsLock, hlock]

theorem gain_queue (hx : SpawnTraced o h x) (hi : x.threads[i]? = some (.unwound p b w)) (v : ℕ) :
    gain (fun s => s.workers.items.count v) i h = 0 := by
  refine gain_of_unwound (g := fun _ => 0) rfl ?_ ?_ hx hi
  · intro y _ t s' t' new _ hs hfound
    cases hs with
    | detachNone _ hd | recheckNone _ hd =>
        obtain ⟨hold, hnew⟩ := WorkerQueue.detach_none hd
        simp only [hold, hnew]
    | detachSome | recheckSome => cases hfound
    | _ => rfl
  · exact fun _ _ _ _ _ _ => rfl

end SpawnTraced

/-! ## What is left of the pool afterwards -/

namespace Attempt

/-- A worker's thread that has not left the pool. -/
def alive : Attempt → Bool
  | .live t => t.counted
  | _ => false

/-- A `release_context` with a context that has passed its final test. -/
def passedTest : Attempt → Bool
  | .live t => t.passedTest
  | _ => false

def isUnwound : Attempt → Bool
  | .unwound _ _ _ => true
  | _ => false

def isUnstarted : Attempt → Bool
  | .unstarted _ => true
  | _ => false

end Attempt

def aliveWorkers (x : SpawnConfig) : ℤ := x.threads.countP Attempt.alive

/-- The spawns that have failed. -/
def failedSpawns (x : SpawnConfig) : ℤ := x.threads.countP Attempt.isUnwound

/-- What a step does to the failures and to the final tests: no failure is undone, a test
is passed on a reading of zero only, and the threads that are started are neither. -/
theorem Attempt.next_spec {o : Options} {s : PoolCore} {i : ℕ} {u : Attempt} {env : Env}
    {r : PoolCore × Attempt × List Attempt} (h : u.next o s i env = some r) :
    u.isUnwound = false ∧ (r.2.1.passedTest = true → s.running = 0 ∨ u.passedTest = true) ∧
      ∀ v ∈ r.2.2, v.isUnwound = false ∧ v.passedTest = false := by
  rcases next_cases h with ⟨p, b, w, rfl, rfl⟩ | ⟨t, s', t', new, rfl, hr, rfl⟩
  · refine ⟨rfl, nofun, fun v hv => ?_⟩
    obtain rfl := List.mem_singleton.mp hv
    exact ⟨rfl, rfl⟩
  · have hs := program_step hr
    refine ⟨rfl, fun hp => (hs.passedTest hp).2, fun v hv => ?_⟩
    obtain ⟨t, ht, rfl⟩ := List.mem_map.mp hv
    rcases hs.new_cases ht with ⟨_, rfl⟩ | rfl | rfl <;> exact ⟨rfl, rfl⟩

/-- A failed spawn leaves a caller that unwound and a thread that it did not get. -/
def failureLedger : Ledger PoolCore Attempt where
  held _ := 0
  carried u := (if u.isUnwound then 1 else 0) + -(if u.isUnstarted then 1 else 0)

theorem failureLedger_kept (o : Options) : failureLedger.Kept (spawning o) fun _ _ => True where
  start i c := rfl
  next s i u a r _ hn := by
    rcases Attempt.next_cases hn with ⟨p, b, w, rfl, rfl⟩ | ⟨t, s', t', new, rfl, hr, rfl⟩
    · rfl
    · have hnew : total failureLedger.carried (new.map .live) = 0 := by
        refine total_eq_zero fun v hv => ?_
        obtain ⟨t, _, rfl⟩ := List.mem_map.mp hv
        rfl
      rw [hnew]
      rfl

namespace SpawnRun
variable {o : Options} {x : SpawnConfig}

theorem unstarted_eq (hx : SpawnRun o x) :
    (x.threads.countP Attempt.isUnstarted : ℤ) = failedSpawns x := by
  have hbal : failureLedger.balance x = 0 := by
    refine (failureLedger_kept o).balance_eq (fun _ _ _ _ _ => trivial) ?_ hx
    rintro y ⟨z, _, rfl⟩
    refine (zero_add _).trans (total_eq_zero fun u hu => ?_)
    obtain ⟨t, _, rfl⟩ := List.mem_map.mp hu
    rfl
  simp only [Ledger.balance, failureLedger, total_add, total_neg, total_indicator] at hbal
  unfold failedSpawns
  omega

/-- `running` counts the workers that are there and the spawns that have failed. -/
theorem running_eq (hx : SpawnRun o x) : x.shared.running = aliveWorkers x + failedSpawns x := by
  have hrun : x.shared.running = (x.threads.map Attempt.stands).countP Thread.counted :=
    hx.stands.running_eq
  have hsplit : (x.threads.countP (Thread.counted ∘ Attempt.stands) : ℤ) =
      x.threads.countP Attempt.alive + x.threads.countP Attempt.isUnstarted := by
    rw [← total_indicator, ← total_indicator, ← total_indicator, ← total_add]
    refine total_congr fun u _ => ?_
    cases u with
    | live t => exact (add_zero _).symm
    | unwound | unstarted => rfl
  rw [hrun, List.countP_map, hsplit, hx.unstarted_eq]
  rfl

theorem running_pos (hx : SpawnRun o x) (hf : 0 < failedSpawns x) : 0 < x.shared.running := by
  have heq := hx.running_eq
  have halive : 0 ≤ aliveWorkers x := Int.natCast_nonneg _
  omega

/-- A spawn that has failed stays one, and from then on the final test of a
`release_context` is not passed any more. -/
theorem later (hx : SpawnRun o x) (hf : 0 < failedSpawns x) {y : SpawnConfig}
    (hy : (spawning o).Reach (fun z => z = x) (fun _ _ => True) y) :
    failedSpawns x ≤ failedSpawns y ∧
    ∀ (j : ℕ) u, y.threads[j]? = some u → u.passedTest = true →
      ∃ v, x.threads[j]? = some v ∧ v.passedTest = true := by
  refine Program.Reach.invariant (J := fun y => failedSpawns x ≤ failedSpawns y ∧
    ∀ (j : ℕ) u, y.threads[j]? = some u → u.passedTest = true →
      ∃ v, x.threads[j]? = some v ∧ v.passedTest = true) ?_ ?_ ?_ hy
  · rintro z rfl
    exact ⟨le_rfl, fun j u hu hp => ⟨u, hu, hp⟩⟩
  · intro z c _ ⟨hle, hall⟩ _
    constructor
    · have hsame : failedSpawns ((spawning o).entered z c) = failedSpawns z := by
        simp [failedSpawns, Program.entered, spawning, Attempt.isUnwound]
      omega
    · intro j u hu hp
      rcases getElem?_concat_cases hu with hu | ⟨_, rfl⟩
      · exact hall j u hu hp
      · cases c <;> cases hp
  · intro z i a u r hz ⟨hle, hall⟩ _ hu hn
    have hz' : SpawnRun o z := hx.trans hz
    have hrun := hz'.running_pos (by omega)
    obtain ⟨hself, htest, hnew⟩ := Attempt.next_spec hn
    constructor
    · have hcount := Config.countP_after Attempt.isUnwound hu fun v hv => (hnew v hv).1
      simp only [hself, Bool.false_eq_true, if_false, add_zero] at hcount
      unfold failedSpawns at hle ⊢
      split at hcount <;> omega
    · intro j v hv hp
      rcases Config.getElem?_after hu hv with ⟨rfl, rfl⟩ | ⟨_, hv⟩ | ⟨_, hv⟩
      · exact hall j u hu ((htest hp).resolve_left hrun.ne')
      · exact hall j v hv hp
      · exact absurd hp (by simp [(hnew v hv).2])

end SpawnRun

/-- A call whose worker's thread can not be started gives the lock back and leaves the
queue and `waiting` as they were, and `running` one higher. It stays so: `running`
counts the workers and the failed spawns, these take up capacity, and no later
`release_context` finds `running` at zero. -/
theorem failed_spawn_leaks {o : Options}
    {h : List (Interleaving.Event PoolCore Attempt Call Env)} {x : SpawnConfig}
    (hx : SpawnTraced o h x) :
    (∀ (i : ℕ) p b w, x.threads[i]? = some (.unwound p b w) →
      gain PoolCore.running i h = 1 ∧ gain PoolCore.waiting i h = 0 ∧
      (∀ v, gain (fun s => s.workers.items.count v) i h = 0) ∧
      gain PoolCore.lockCount i h = 0) ∧
    x.shared.running = aliveWorkers x + failedSpawns x ∧
    (x.shared.capacity ≠ -1 →
      ∃ k ∈ x.shared.past.capacities, aliveWorkers x + failedSpawns x ≤ k) ∧
    (0 < failedSpawns x → ∀ y, (spawning o).Reach (fun z => z = x) (fun _ _ => True) y →
      failedSpawns x ≤ failedSpawns y ∧ 0 < y.shared.running ∧
      ∀ (j : ℕ) u, y.threads[j]? = some u → u.passedTest = true →
        ∃ v, x.threads[j]? = some v ∧ v.passedTest = true) := by
  have hrun : SpawnRun o x := hx.reach
  have heq := hrun.running_eq
  refine ⟨fun i p b w hi => ?_, heq, fun hc => ?_, fun hf y hy => ?_⟩
  · exact ⟨hx.gain_running hi, hx.gain_waiting hi, hx.gain_queue hi, hx.gain_lock hi⟩
  · rw [← heq]
    exact hrun.stands.bounded.1.within.resolve_left hc
  · have hy' : SpawnRun o y := hrun.trans hy
    obtain ⟨hle, htest⟩ := hrun.later hf hy
    exact ⟨hle, hy'.running_pos (by omega), htest⟩

/-- The small pool, on a system that may refuse threads. -/
def refusingPool : SpawnConfig := smallPool.map .live

/-- A caller finds the pool empty and the system refuses the thread. -/
def refusedMoves : List Move := .call (.submit false) :: steps 2 5 ++ [.step 2 .fault]

theorem failed_spawn_leaks_small :
    ∃ h x, SpawnTraced smallOptions h x ∧
      x.threads[2]? = some (.unwound ⟨2, false⟩ false 0) ∧ gain PoolCore.running 2 h = 1 := by
  obtain ⟨h, x, hx, hφ⟩ := Program.Trace.exists_of_trace (P := spawning smallOptions)
    (I := SpawnStarts smallOptions) (G := fun _ _ => True) (x := refusingPool) (m := refusedMoves)
    (φ := fun _ x => decide (x.threads[2]? = some (Attempt.unwound ⟨2, false⟩ false 0)))
    ⟨smallPool, smallPool_starts, rfl⟩ (by decide)
  have ht := of_decide_eq_true hφ
  exact ⟨h, x, hx, ht, ((failed_spawn_leaks hx).1 2 _ _ _ ht).1⟩

/-- A pool with one slot and without workers, before the call and after it: the slot is
gone, and the next caller blocks although nobody is there to wake it. -/
theorem spawn_failure_takes_slot :
    refusingPool.shared.running = 0 ∧ refusingPool.shared.capacity = 1 ∧
    ∃ x, SpawnRun smallOptions x ∧ x.threads[2]? = some (.unwound ⟨2, false⟩ false 0) ∧
      x.shared.running = 1 ∧ aliveWorkers x = 0 ∧ x.shared.capacity = 1 ∧
      x.threads[4]? = some (.live (.submit ⟨⟨4, false⟩, true, .parked 0⟩)) ∧
      x.shared.cond.poll 0 = none := by
  obtain ⟨x, hx, hφ⟩ := Program.Reach.exists_of_run (P := spawning smallOptions)
    (I := SpawnStarts smallOptions) (G := fun _ _ => True) (x := refusingPool)
    (m := refusedMoves ++ .call (.submit false) :: steps 4 5)
    (φ := fun x => decide (x.threads[2]? = some (Attempt.unwound ⟨2, false⟩ false 0) ∧
      x.shared.running = 1 ∧ aliveWorkers x = 0 ∧ x.shared.capacity = 1 ∧
      x.threads[4]? = some (Attempt.live (.submit ⟨⟨4, false⟩, true, .parked 0⟩)) ∧
      x.shared.cond.poll 0 = none))
    ⟨smallPool, smallPool_starts, rfl⟩ (by decide)
  exact ⟨by decide, by decide, x, hx, of_decide_eq_true hφ⟩

end AntsPool
