import AntsPool.Preallocated
import AntsPool.Traces

/-!
# Builds with and without overflow checks

A sum that does not fit in `i32` panics in one build and wraps around in another. Here a
pool parks its workers in a queue as either build runs it, with a ring that is just its
storage: nothing is claimed about the slots. A pool touches its queue through the trait
alone, so where both queues answer alike the two pools take the same steps.
-/
namespace AntsPool
open Interleaving

/-- How a build makes an `i32` sum that does not fit. -/
inductive Build
  | checked
  | wrapping
deriving Repr, DecidableEq

def Build.i32 : Build → ℤ → Option ℤ
  | .checked => CheckedI32.check
  | .wrapping => fun z => some (CheckedI32.wrap z)

theorem Build.i32_of_fits (b : Build) {z : ℤ} (h : CheckedI32.fits z) : b.i32 z = some z := by
  cases b with
  | checked => exact CheckedI32.check_of_fits h
  | wrapping => exact congrArg some (CheckedI32.wrap_of_fits h)

/-- The queue of a pool in build `b`. -/
inductive BuiltQueue (b : Build)
  | stack (q : WorkerStack ℕ)
  | loopQueue (q : LoopQueue ℕ)
deriving DecidableEq

namespace BuiltQueue
variable {b : Build}

def new (queueType : QueueType) (size : ℤ) : Option (BuiltQueue b) :=
  if queueType = .loopQueue then (LoopQueue.new size).map .loopQueue
  else some (.stack (.new size))

def items : BuiltQueue b → List ℕ
  | .stack q => q.items
  | .loopQueue q => q.contents

def insert (worker : ℕ) : BuiltQueue b → Except Error (BuiltQueue b)
  | .stack q => (q.insert worker).map .stack
  | .loopQueue q => (q.insert worker).map .loopQueue

def detach : BuiltQueue b → Option ℕ × BuiltQueue b
  | .stack q => (q.detach.1, .stack q.detach.2)
  | .loopQueue q => (q.detach.1, .loopQueue q.detach.2)

def refresh (stamp : ℕ → ℤ) (now duration : ℤ) : BuiltQueue b →
    Option (List ℕ × BuiltQueue b)
  | .stack q => some ((q.refresh stamp now duration).1, .stack (q.refresh stamp now duration).2)
  | .loopQueue q =>
      (q.refreshWith b.i32 stamp now duration).map fun r => (r.1, .loopQueue r.2)

def reset : BuiltQueue b → List ℕ × BuiltQueue b
  | .stack q => (q.reset.1, .stack q.reset.2)
  | .loopQueue q => (q.reset.1, .loopQueue q.reset.2)

instance : IdleQueue (BuiltQueue b) where
  new := new
  items := items
  insert := insert
  detach := detach
  refresh := refresh
  reset := reset

end BuiltQueue

/-! ## Queues that answer alike -/

variable {Q Q' : Type}

namespace PoolCore

/-- The same pool with its queue seen through `f`. -/
def map (f : Q → Q') (s : PoolCore Q) : PoolCore Q' := { s with workers := f s.workers }

section Fields
variable (f : Q → Q') (s : PoolCore Q)

@[simp] theorem map_workers : (s.map f).workers = f s.workers := rfl

@[simp] theorem map_cond : (s.map f).cond = s.cond := rfl

@[simp] theorem map_workerCache : (s.map f).workerCache = s.workerCache := rfl

@[simp] theorem map_purgeCtx : (s.map f).purgeCtx = s.purgeCtx := rfl

@[simp] theorem map_stopPurge : (s.map f).stopPurge = s.stopPurge := rfl

@[simp] theorem map_ticktockCtx : (s.map f).ticktockCtx = s.ticktockCtx := rfl

@[simp] theorem map_stopTicktock : (s.map f).stopTicktock = s.stopTicktock := rfl

@[simp] theorem map_goWorkers : (s.map f).goWorkers = s.goWorkers := rfl

@[simp] theorem map_past : (s.map f).past = s.past := rfl

@[simp] theorem map_finishAll (ws : List ℕ) : (s.map f).finishAll ws = (s.finishAll ws).map f := by
  induction ws generalizing s with
  | nil => rfl
  | cons w ws ih => exact ih (s.finish w)

end Fields

end PoolCore

section Steps
variable {f : Q → Q'} {o : Options}

theorem Ticktock.next_map (s : PoolCore Q) (t : Ticktock) :
    t.next (s.map f) = (t.next s).map fun r => (r.1.map f, r.2) := by
  cases t with
  | start =>
      simp only [next, PoolCore.map_ticktockCtx]
      cases s.ticktockCtx <;> rfl
  | _ => rfl

theorem Reboot.next_map (s : PoolCore Q) (t : Reboot) :
    t.next o (s.map f) = (t.next o s).map fun r => (r.1.map f, r.2) := by
  cases t with
  | latchWait | waitPurge | waitTicktock | exchange =>
      simp only [next, apply_ite (Option.map _)]
      rfl
  | _ => rfl

theorem Tune.next_map (s : PoolCore Q) (t : Tune) :
    t.next o (s.map f) = (t.next o s).map fun r => (r.1.map f, r.2) := by
  cases t with
  | readCap =>
      simp only [next, apply_ite (Option.map _)]
      rfl
  | _ => rfl

end Steps

variable [IdleQueue Q] [IdleQueue Q']

/-- Seen through `f` the calls of the trait but `refresh` do the same. -/
structure IdleQueue.Alike (f : Q → Q') : Prop where
  new : ∀ queueType size, new queueType size = (new queueType size).map f
  items : ∀ q, items (f q) = items q
  insert : ∀ w q, insert w (f q) = (insert w q).map f
  detach : ∀ q, detach (f q) = ((detach q).1, f (detach q).2)
  reset : ∀ q, reset (f q) = ((reset q).1, f (reset q).2)

namespace PoolCore

/-- The refresh that a pool would make now. -/
def refreshed (o : Options) (s : PoolCore Q) : Option (List ℕ × Q) :=
  IdleQueue.refresh s.stamp s.clock o.expiryDuration s.workers

/-- In the state `s` the scavenger's refresh does the same, too. -/
def refreshesAlike (f : Q → Q') (o : Options) (s : PoolCore Q) : Prop :=
  (s.map f).refreshed o = (s.refreshed o).map fun r => (r.1, f r.2)

end PoolCore

section Steps
variable {f : Q → Q'} {o : Options}

theorem Submit.detach_map (hf : IdleQueue.Alike f) (s : PoolCore Q) (t : Submit) :
    detach (s.map f) t = ((detach s t).1.map f, (detach s t).2) := by
  simp only [detach, PoolCore.map_workers, hf.detach]
  rcases IdleQueue.detach s.workers with ⟨_ | w, q⟩ <;> rfl

theorem Submit.next_map (hf : IdleQueue.Alike f) (s : PoolCore Q) (t : Submit) :
    t.next o (s.map f) = (t.next o s).map fun r => (r.1.map f, r.2) := by
  obtain ⟨p, w, pc⟩ := t
  cases pc with
  | lock | recheck =>
      simp only [next, detach_map hf, apply_ite (Option.map _)]
      rfl
  | readRunning | woken =>
      simp only [next, apply_ite (Option.map _)]
      rfl
  | spawn =>
      simp only [next, PoolCore.fetchCachedWorker, PoolCore.map_workerCache]
      cases s.workerCache <;> rfl
  | park =>
      simp only [next, park, PoolCore.map_cond]
      cases s.cond.register.poll s.cond.register.generation <;> rfl
  | parked g =>
      simp only [next, PoolCore.map_cond]
      cases s.cond.poll g <;> rfl
  | _ => rfl

theorem Work.next_map (hf : IdleQueue.Alike f) (s : PoolCore Q) (t : Work) (env : Env) :
    t.next (s.map f) env = (t.next s env).map fun r => (r.1.map f, r.2) := by
  obtain ⟨w, p, pc⟩ := t
  cases pc with
  | recv =>
      simp only [next, recv, PoolCore.map_goWorkers]
      rcases (s.goWorkers w).channel with _ | ⟨_ | _, rest⟩ <;> rfl
  | insert =>
      simp only [next, insert, PoolCore.map_workers, hf.insert]
      cases IdleQueue.insert w s.workers <;> rfl
  | call | revertLock =>
      simp only [next, apply_ite (Option.map _)]
      rfl
  | _ => rfl

theorem Purge.next_map {s : PoolCore Q} (hr : s.refreshesAlike f o) (t : Purge) :
    t.next o (s.map f) = (t.next o s).map fun r => (r.1.map f, r.2) := by
  cases t with
  | start =>
      simp only [next, PoolCore.map_purgeCtx]
      cases s.purgeCtx <;> rfl
  | refresh c =>
      unfold PoolCore.refreshesAlike PoolCore.refreshed at hr
      simp only [next, hr, apply_ite (Option.map _)]
      change (if s.locked then _ else _) = _
      split_ifs
      · rfl
      · cases IdleQueue.refresh s.stamp s.clock o.expiryDuration s.workers <;> rfl
  | finish c stale d => cases stale <;> rfl
  | _ => rfl

theorem Release.reset_map (hf : IdleQueue.Alike f) (i : ℕ) (s : PoolCore Q) :
    reset i (s.map f) = (reset i s).map f := by
  simp only [reset, PoolCore.map_workers, hf.reset, hf.items]
  have hfin := PoolCore.map_finishAll f { s with workers := (IdleQueue.reset s.workers).2 }
    (IdleQueue.reset s.workers).1
  exact congrArg (fun r : PoolCore Q' => { r with past := { r.past with
    drained := if r.past.closer = some i then some (IdleQueue.items s.workers)
      else r.past.drained } }) hfin

theorem Release.next_map (hf : IdleQueue.Alike f) (i : ℕ) (s : PoolCore Q) (t : Release)
    (env : Env) : t.next o i (s.map f) env = (t.next o i s env).map fun r => (r.1.map f, r.2) := by
  obtain ⟨m, p, k, pc⟩ := t
  cases pc with
  | exchange =>
      simp only [next, apply_ite (Option.map _)]
      rfl
  | takePurge =>
      simp only [next, PoolCore.map_stopPurge]
      cases s.stopPurge <;> rfl
  | takeTicktock =>
      simp only [next, PoolCore.map_stopTicktock]
      cases s.stopTicktock <;> rfl
  | reset =>
      simp only [next, reset_map hf, apply_ite (Option.map _)]
      rfl
  | waitPurgeCtx e =>
      cases p <;> simp only [next, apply_ite (Option.map _)] <;> rfl
  | waitTicktockCtx e =>
      cases k <;> simp only [next, apply_ite (Option.map _)] <;> rfl
  | _ => rfl

theorem Thread.next_map (hf : IdleQueue.Alike f) {s : PoolCore Q} (hr : s.refreshesAlike f o)
    (i : ℕ) (t : Thread) (env : Env) :
    t.next o (s.map f) i env = (t.next o s i env).map fun r => (r.1.map f, r.2) := by
  cases t with
  | submit t =>
      simp only [next, Submit.next_map hf, Option.map_map]
      rfl
  | work t =>
      simp only [next, Work.next_map hf, Option.map_map]
      rfl
  | purge t =>
      simp only [next, Purge.next_map hr, Option.map_map]
      rfl
  | ticktock t =>
      simp only [next, Ticktock.next_map, Option.map_map]
      rfl
  | release t =>
      simp only [next, Release.next_map hf, Option.map_map]
      rfl
  | reboot t =>
      simp only [next, Reboot.next_map, Option.map_map]
      rfl
  | tune t =>
      simp only [next, Tune.next_map, Option.map_map]
      rfl
  | clock => cases env <;> rfl

end Steps

theorem PoolCore.new_map {f : Q → Q'} (hf : IdleQueue.Alike f) (size : ℤ) (options : Options)
    (clock : ℤ) :
    PoolCore.new size options clock Q' = (PoolCore.new size options clock Q).map fun r =>
      r.map fun r => (r.1, r.2.mapShared (PoolCore.map f)) := by
  unfold PoolCore.new
  extract_lets capacity expiry opts
  by_cases hexpiry : ¬ options.disablePurge = true ∧ expiry < 0
  · rw [if_pos hexpiry, if_pos hexpiry]
    rfl
  · by_cases hsize : opts.preAlloc = true ∧ capacity = -1
    · rw [if_neg hexpiry, if_neg hexpiry, if_pos hsize, if_pos hsize]
      rfl
    · have hqueue : (if opts.preAlloc then IdleQueue.new .loopQueue capacity
          else IdleQueue.new .stack 0 : Option Q') =
          (if opts.preAlloc then IdleQueue.new .loopQueue capacity
            else IdleQueue.new .stack 0 : Option Q).map f := by
        split_ifs <;> exact hf.new _ _
      rw [if_neg hexpiry, if_neg hexpiry, if_neg hsize, if_neg hsize, hqueue, Option.map_map,
        Option.map_map]
      refine congrArg (fun g => Option.map g _) (funext fun queue => ?_)
      simp only [Function.comp_apply]
      cases opts.disablePurge <;> rfl

/-! ## The pool of a build -/

namespace WorkerQueue
variable {b : Build}

/-- The queue of a pool as build `b` keeps it. -/
def built : WorkerQueue ℕ → BuiltQueue b
  | .stack q => .stack q
  | .loopQueue q => .loopQueue q.1

theorem built_alike : IdleQueue.Alike (built (b := b)) where
  new queueType size := by
    change BuiltQueue.new queueType size = (newWorkerQueue queueType size).map built
    unfold BuiltQueue.new newWorkerQueue
    split_ifs
    · rw [← Ring.new_val, Option.map_map, Option.map_map]
      rfl
    · rfl
  items q := by cases q <;> rfl
  insert w q := by
    cases q with
    | stack q => rfl
    | loopQueue q =>
        change (q.1.insert w).map .loopQueue = ((q.insert w).map .loopQueue).map built
        rw [← q.insert_val]
        cases q.insert w <;> rfl
  detach q := by cases q <;> rfl
  reset q := by cases q <;> rfl

end WorkerQueue

/-- A build that checks its sums, or a queue that gives it nothing to check. -/
def PoolCore.buildsAgree (b : Build) (s : PoolCore) : Prop := b = .checked ∨ s.workers.inRange

theorem PoolCore.buildsAgree.refreshesAlike {b : Build} {s : PoolCore} (h : s.buildsAgree b)
    (o : Options) : s.refreshesAlike (WorkerQueue.built (b := b)) o := by
  unfold PoolCore.refreshesAlike PoolCore.refreshed
  change BuiltQueue.refresh s.stamp s.clock o.expiryDuration s.workers.built =
    (s.workers.refreshI32 s.stamp s.clock o.expiryDuration).map fun r => (r.1, r.2.built)
  cases hq : s.workers with
  | stack q => rfl
  | loopQueue q =>
      have heq : q.1.refreshWith b.i32 s.stamp s.clock o.expiryDuration =
          q.1.refreshI32 s.stamp s.clock o.expiryDuration := by
        rcases h with rfl | hring
        · rfl
        · rw [hq] at hring
          have hle := hring q.1.size rfl
          rw [LoopQueue.refreshWith_of_le (fun _ => b.i32_of_fits) q.represents hle]
          exact (LoopQueue.refreshWith_of_le (fun _ => CheckedI32.check_of_fits)
            q.represents hle _ _).symm
      simp only [BuiltQueue.refresh, WorkerQueue.built, WorkerQueue.refreshI32, Option.map_map,
        heq, ← q.refreshI32_val]
      rfl

/-- The runs of a pool of size `size` in build `b`. -/
abbrev BuildRun (b : Build) (size : ℤ) (o : Options)
    (G : Config (BuiltQueue b) → Move → Prop) (x : Config (BuiltQueue b)) : Prop :=
  (program o (BuiltQueue b)).Reach (Made size o) G x

/-- The same with their moves. -/
abbrev BuildTrace (b : Build) (size : ℤ) (o : Options)
    (G : Config (BuiltQueue b) → Move → Prop)
    (h : List (Event (PoolCore (BuiltQueue b)) Thread Call Env)) (x : Config (BuiltQueue b)) :
    Prop :=
  (program o (BuiltQueue b)).Trace (Made size o) G h x

/-- A build that checks its sums, or a pool whose ring, if it has one, is small enough that
no sum can overflow. -/
def safeBuild (b : Build) (size : ℤ) (o : Options) : Prop :=
  b = .checked ∨ o.preAlloc = false ∨ size ≤ 715827883

namespace Made
variable {size : ℤ} {o : Options} {b : Build}

theorem unbuilt {y : Config (BuiltQueue b)} (h : Made size o y) :
    ∃ x : Config, Made size o x ∧ y = x.mapShared (PoolCore.map WorkerQueue.built) := by
  obtain ⟨options, clock, h⟩ := h
  rw [PoolCore.new_map WorkerQueue.built_alike] at h
  obtain ⟨r, hr, h⟩ := Option.map_eq_some_iff.mp h
  cases r with
  | error e => cases h
  | ok r =>
      cases h
      exact ⟨r.2, ⟨options, clock, hr⟩, rfl⟩

theorem inRange {x : Config} (h : Made size o x) (hsafe : o.preAlloc = false ∨ size ≤ 715827883) :
    x.shared.workers.inRange := by
  obtain ⟨options, clock, h⟩ := h
  obtain ⟨_, capacity, hcap, hpre, queue, hqueue, _, _, _, _, hs, _⟩ := PoolCore.new_ok h
  rw [hs]
  split_ifs at hqueue with hp
  · have hsize := hsafe.resolve_left (by simp [hp])
    intro n hn
    rw [WorkerQueue.new_slots hqueue] at hn
    cases hn
    split_ifs at hcap <;> omega
  · cases hqueue
    exact nofun

end Made

/-- In a safe build every pool that runs refreshes as the checked one does. -/
theorem buildsAgree_of_reach {b : Build} {size : ℤ} {o : Options} (hsafe : safeBuild b size o)
    {G : Guard} {x : Config} (hx : (program o).Reach (Made size o) G x) :
    x.shared.buildsAgree b := by
  refine hsafe.imp id fun hsize => ?_
  obtain ⟨x₀, hx₀, hreach⟩ := hx.exists_start
  exact inRange_of_reach (hx₀.inRange hsize) hreach

/-- So its runs are those of the checked pool, with their moves. -/
theorem BuildTrace.exists_trace {b : Build} {size : ℤ} {o : Options}
    (hsafe : safeBuild b size o) {G : Guard} {G' : Config (BuiltQueue b) → Move → Prop}
    (hG : ∀ x m, G' (x.mapShared (PoolCore.map WorkerQueue.built)) m → G x m)
    {h : List (Event (PoolCore (BuiltQueue b)) Thread Call Env)} {y : Config (BuiltQueue b)}
    (hy : BuildTrace b size o G' h y) :
    ∃ h' x, (program o).Trace (Made size o) G h' x ∧ x.shared.buildsAgree b ∧
      h = h'.map (Event.mapShared (PoolCore.map WorkerQueue.built)) ∧
      y = x.mapShared (PoolCore.map WorkerQueue.built) := by
  obtain ⟨h', x, hx, hh, hxy⟩ := Program.Trace.over (P := program o) (I := Made size o) (G := G)
    (f := PoolCore.map WorkerQueue.built) (fun y hy => hy.unbuilt) (fun _ _ => rfl)
    (fun x hx i t a => Thread.next_map WorkerQueue.built_alike
      ((buildsAgree_of_reach hsafe hx).refreshesAlike o) i t a) hG hy
  exact ⟨h', x, hx, buildsAgree_of_reach hsafe hx.reach, hh, hxy⟩

theorem BuildRun.exists_run {b : Build} {size : ℤ} {o : Options} (hsafe : safeBuild b size o)
    {G : Guard} {G' : Config (BuiltQueue b) → Move → Prop}
    (hG : ∀ x m, G' (x.mapShared (PoolCore.map WorkerQueue.built)) m → G x m)
    {y : Config (BuiltQueue b)} (hy : BuildRun b size o G' y) :
    ∃ x, (program o).Reach (Made size o) G x ∧
      y = x.mapShared (PoolCore.map WorkerQueue.built) := by
  obtain ⟨h, hy⟩ := hy.exists_trace
  obtain ⟨_, x, hx, _, _, hxy⟩ := BuildTrace.exists_trace hsafe hG hy
  exact ⟨x, hx.reach, hxy⟩

end AntsPool
