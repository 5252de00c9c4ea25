import AntsPool.PoolSteps

/-!
# Runs of a pool

A run starts from what `PoolCore::new` returned. Calls come in at any time and
in any number, and every thread takes its steps in any order. The first results
restate the rules for interleavings with the step relations of the threads in
place of the step functions.
-/
namespace AntsPool
open Interleaving ListTotals

abbrev Move := Interleaving.Move Call Env

/-- A condition on the moves of a run. -/
abbrev Guard := Config → Move → Prop

/-- The configurations that `PoolCore::new` returns for `size`. -/
def Made {Q : Type} [IdleQueue Q] (size : ℤ) (o : Options) (x : Config Q) : Prop :=
  ∃ options clock, PoolCore.new size options clock Q = some (.ok (o, x))

/-- The configurations that `PoolCore::new` returns. -/
def Starts (o : Options) (x : Config) : Prop :=
  ∃ size options clock, PoolCore.new size options clock = some (.ok (o, x))

theorem Made.starts {size : ℤ} {o : Options} {x : Config} (h : Made size o x) : Starts o x :=
  ⟨size, h⟩

/-- All that `PoolCore::new` can return. -/
theorem PoolCore.new_ok {size : ℤ} {options o : Options} {clock : ℤ} {x : Config}
    (h : PoolCore.new size options clock = some (.ok (o, x))) :
    (options.disablePurge = true → o = options) ∧
    ∃ capacity, capacity = (if size ≤ 0 then -1 else size) ∧
      (o.preAlloc = true → capacity ≠ -1) ∧
    ∃ queue, (if o.preAlloc then newWorkerQueue .loopQueue capacity else newWorkerQueue .stack 0) =
        some queue ∧
    ∃ purge events latest, (∀ e, events e = false) ∧
      x.shared =
        { capacity := capacity, running := 0, locked := false, workers := queue,
          state := .opened, cond := Cond.new, allDone := 0, workerCache := [], waiting := 0,
          purgeDone := false, purgeCtx := purge, stopPurge := purge,
          ticktockDone := false, ticktockCtx := some latest, stopTicktock := some latest,
          now := clock, goWorkers := fun _ => {}, goWorkerCount := 0,
          events := events, eventCount := latest + 1, clock := clock,
          past := ⟨[capacity], none, [], none, []⟩ } ∧
      x.threads = .clock :: (if o.disablePurge then [] else [.purge .start]) ++
        [.ticktock .start] := by
  unfold PoolCore.new at h
  extract_lets capacity expiry opts at h
  split at h
  · cases h
  · split at h
    · cases h
    · rename_i hbounded
      obtain ⟨queue, hqueue, hr⟩ := Option.map_eq_some_iff.mp h
      obtain ⟨rfl, rfl⟩ := Prod.mk.inj (Except.ok.inj hr)
      refine ⟨fun hp => if_neg fun hn => hn.1 hp, capacity, rfl,
        fun hpre hc => hbounded ⟨hpre, hc⟩, queue, hqueue, ?_⟩
      cases opts.disablePurge with
      | true =>
          refine ⟨none, Function.update (fun _ => false) 1 false, 1, fun e => ?_, rfl, rfl⟩
          rw [Function.update_apply, ite_self]
      | false =>
          refine ⟨some 1, Function.update (Function.update (fun _ => false) 1 false) 2 false, 2,
            fun e => ?_, rfl, rfl⟩
          rw [Function.update_apply, Function.update_apply, ite_self, ite_self]

/-- The configurations that runs under the guard `G` reach. -/
abbrev Run (o : Options) (G : Guard) (x : Config) : Prop := (program o).Reach (Starts o) G x

/-- No condition. -/
def anyMove : Guard := fun _ _ => True

/-- A background thread that has not run yet, or the wall clock. -/
def Thread.background (t : Thread) : Prop :=
  t = .clock ∨ t = .purge .start ∨ t = .ticktock .start

/-- A thread that a pool starts by itself, before its first step. -/
def Thread.newborn (t : Thread) : Prop := t.background ∨ ∃ w, t = .work ⟨w, false, .recv⟩

theorem Thread.Step.newborn {o : Options} {i : ℕ} {s s' : PoolCore} {t t' u : Thread}
    {new : List Thread} (h : Thread.Step o i s t s' t' new) (hu : u ∈ new) : u.newborn := by
  rcases h.new_cases hu with hw | hp | ht
  · exact .inr hw
  · exact .inl (.inr (.inl hp))
  · exact .inl (.inr (.inr ht))

/-- What the proofs about runs need of a new pool. -/
structure Fresh (o : Options) (x : Config) : Prop where
  capacities : x.shared.past.capacities = [x.shared.capacity]
  capacity : x.shared.capacity = -1 ∨ 1 ≤ x.shared.capacity
  running : x.shared.running = 0
  locked : x.shared.locked = false
  idle : x.shared.workers.items = []
  state : x.shared.state = .opened
  cond : x.shared.cond = Cond.new
  cache : x.shared.workerCache = []
  waiting : x.shared.waiting = 0
  channel : ∀ w, (x.shared.goWorkers w).channel = []
  workerCount : x.shared.goWorkerCount = 0
  events : ∀ e, x.shared.events e = false
  latch : x.shared.allDone < x.shared.eventCount
  now : x.shared.now = x.shared.clock
  closer : x.shared.past.closer = none
  received : x.shared.past.received = []
  threads : ∀ t ∈ x.threads, t.background

theorem Starts.fresh {o : Options} {x : Config} (h : Starts o x) : Fresh o x := by
  obtain ⟨size, options, clock, h⟩ := h
  obtain ⟨_, capacity, hcapacity, _, queue, hqueue, purge, events, latest, hevents, hs, ht⟩ :=
    PoolCore.new_ok h
  have hpositive : capacity = -1 ∨ 1 ≤ capacity := by
    rw [hcapacity]
    split_ifs <;> omega
  have hidle : queue.items = [] := by
    split_ifs at hqueue <;> exact WorkerQueue.new_items hqueue
  constructor
  case threads =>
    rw [ht]
    cases o.disablePurge <;> simp [Thread.background]
  all_goals simp [hs, hpositive, hidle, hevents]

namespace Run
variable {o : Options} {G : Guard}

/-- The rule for invariants, with the step relations. -/
theorem invariant {J : Config → Prop} (init : ∀ x, Fresh o x → J x)
    (call : ∀ x c, Run o G x → J x → G x (.call c) →
      J ⟨x.shared, x.threads ++ [c.start x.threads.length]⟩)
    (step : ∀ x i a t s' t' new, Run o G x → J x → G x (.step i a) → x.threads[i]? = some t →
      Thread.Step o i x.shared t s' t' new → J (x.after i (s', t', new)))
    {x : Config} (h : Run o G x) : J x :=
  Program.Reach.invariant (fun x hx => init x hx.fresh) call
    (fun x i a t r hr hx hg ht hn => step x i a t r.1 r.2.1 r.2.2 hr hx hg ht (program_step hn)) h

/-- The rule for a property of the shared state and one of every thread. -/
theorem invariant_threads {J : PoolCore → Prop} {φ : PoolCore → ℕ → Thread → Prop}
    (init : ∀ x, Fresh o x → J x.shared ∧ ∀ i t, t.background → φ x.shared i t)
    (call : ∀ x c, Run o G x → J x.shared → G x (.call c) →
      φ x.shared x.threads.length (c.start x.threads.length))
    (step : ∀ x i a t s' t' new, Run o G x → J x.shared →
      (∀ j u, x.threads[j]? = some u → φ x.shared j u) →
      G x (.step i a) → x.threads[i]? = some t → Thread.Step o i x.shared t s' t' new →
      J s' ∧ φ s' i t' ∧ (∀ u ∈ new, ∀ j, x.threads.length ≤ j → φ s' j u) ∧
        ∀ j u, j ≠ i → x.threads[j]? = some u → φ s' j u)
    {x : Config} (h : Run o G x) : J x.shared ∧ ∀ i t, x.threads[i]? = some t → φ x.shared i t := by
  refine Program.Reach.invariant_threads ?_ call ?_ h
  · intro x hx
    have hi := init x hx.fresh
    exact ⟨hi.1, fun i t ht => hi.2 i t (hx.fresh.threads t (List.mem_of_getElem? ht))⟩
  · intro x i a t r hr hJ hφ hg ht hn
    exact step x i a t r.1 r.2.1 r.2.2 hr hJ hφ hg ht (program_step hn)

/-- The same rule for a property that every newborn thread has. -/
theorem invariant_newborn {J : PoolCore → Prop} {φ : PoolCore → ℕ → Thread → Prop}
    (init : ∀ x, Fresh o x → J x.shared) (newborn : ∀ s i t, t.newborn → φ s i t)
    (call : ∀ x c, Run o G x → J x.shared → G x (.call c) →
      φ x.shared x.threads.length (c.start x.threads.length))
    (step : ∀ x i a t s' t' new, Run o G x → J x.shared →
      (∀ j u, x.threads[j]? = some u → φ x.shared j u) →
      G x (.step i a) → x.threads[i]? = some t → Thread.Step o i x.shared t s' t' new →
      J s' ∧ φ s' i t' ∧ ∀ j u, j ≠ i → x.threads[j]? = some u → φ s' j u)
    {x : Config} (h : Run o G x) : J x.shared ∧ ∀ i t, x.threads[i]? = some t → φ x.shared i t := by
  refine invariant_threads ?_ call ?_ h
  · intro x hx
    exact ⟨init x hx, fun i t hb => newborn _ i t (.inl hb)⟩
  · intro x i a t s' t' new hr hJ hφ hg ht hs
    obtain ⟨hJ', hself, hother⟩ := step x i a t s' t' new hr hJ hφ hg ht hs
    exact ⟨hJ', hself, fun u hu j _ => newborn _ j u (hs.newborn hu), hother⟩

end Run

/-- A ledger is kept when the step relations keep it. -/
theorem kept_of_steps {L : Ledger PoolCore Thread} {o : Options} {V : PoolCore → Thread → Prop}
    (start : ∀ i c, L.carried (Call.start i c) = 0)
    (next : ∀ i s t s' t' new, V s t → Thread.Step o i s t s' t' new →
      L.held s' + L.carried t' + total L.carried new = L.held s + L.carried t) :
    L.Kept (program o) V where
  start := start
  next s i t _ r hV hn := next i s t r.1 r.2.1 r.2.2 hV (program_step hn)

/-- A pool with one slot and no scavenger, as the small runs below use it. -/
def smallOptions : Options := { disablePurge := true }

def smallPool : Config := (((PoolCore.new 1 smallOptions 0).get rfl).toOption.get rfl).2

theorem smallPool_starts : Starts smallOptions smallPool := ⟨1, smallOptions, 0, rfl⟩

instance (x : Config) (m : Move) : Decidable (anyMove x m) := inferInstanceAs (Decidable True)

/-- Thread `i` takes `n` steps in which nothing fails. -/
def steps (i n : ℕ) : List Move := List.replicate n (.step i .ok)

/-- One caller spawned the worker and handed its payload over; the worker runs it. -/
def busyPool : Config :=
  ((program smallOptions).run anyMove smallPool
    (.call (.submit false) :: steps 2 7 ++ steps 3 1)).get (by decide)

theorem busyPool_run : Run smallOptions anyMove busyPool :=
  Program.Reach.run (.init smallPool_starts) (Option.some_get _).symm

end AntsPool
