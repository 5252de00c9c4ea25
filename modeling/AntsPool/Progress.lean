import AntsPool.Accounts
import AntsPool.Traces

/-!
# Who waits for whom

The holder of the spin lock never waits: every step of a critical section can be
taken, whatever the state is, and five of them lead out of it. So a thread that spins
waits for a thread that goes on. With the lock free a thread that can take no step has
returned or waits at one of the few places where the source blocks: a worker for a
message, a caller in `Cond::wait`, a `release_context` for a cancelled context, a
reboot for the latch or for one of the done flags.
-/
namespace AntsPool
open Interleaving

/-- Thread `i` can take no step. -/
def Thread.stuck (o : Options) (s : PoolCore) (i : ℕ) (t : Thread) : Prop :=
  ∀ a, (program o).next s i t a = none

/-- The ends of the threads, and the places where they block while the lock is free. -/
inductive Thread.Rests (o : Options) (s : PoolCore) : Thread → Prop
  | ok {p b w} : Rests o s (.submit ⟨p, b, .ok w⟩)
  | err {p b e} : Rests o s (.submit ⟨p, b, .err e⟩)
  | parked {p b g} (h : s.cond.poll g = none) : Rests o s (.submit ⟨p, b, .parked g⟩)
  | recv {w b} (h : (s.goWorkers w).channel = []) : Rests o s (.work ⟨w, b, .recv⟩)
  | returned {w b} : Rests o s (.work ⟨w, b, .returned⟩)
  | unwound {w b} : Rests o s (.work ⟨w, b, .unwound⟩)
  | purge : Rests o s (.purge .returned)
  | died : Rests o s (.purge .panicked)
  | ticktock : Rests o s (.ticktock .returned)
  | released {m p k r} : Rests o s (.release ⟨m, p, k, .returned r⟩)
  | purgeCtx {m p k e c} (hp : p = some c) (h : s.events c = false) :
      Rests o s (.release ⟨m, p, k, .waitPurgeCtx e⟩)
  | ticktockCtx {m p k e c} (hk : k = some c) (h : s.events c = false) :
      Rests o s (.release ⟨m, p, k, .waitTicktockCtx e⟩)
  | rebooted : Rests o s (.reboot .returned)
  | latch {e} (h : s.events e = false) : Rests o s (.reboot (.latchWait e))
  | purgeDone (hd : o.disablePurge = false) (h : s.purgeDone = false) :
      Rests o s (.reboot .waitPurge)
  | ticktockDone (h : s.ticktockDone = false) : Rests o s (.reboot .waitTicktock)
  | tuned : Rests o s (.tune .returned)

namespace Thread
variable {o : Options} {s : PoolCore} {i : ℕ}

theorem stuck.submit {t : Submit} (h : (Thread.submit t).stuck o s i) : t.next o s = none :=
  Option.map_eq_none_iff.mp (h .ok)

theorem stuck.work {t : Work} (h : (Thread.work t).stuck o s i) : t.next s .ok = none :=
  Option.map_eq_none_iff.mp (h .ok)

theorem stuck.purge {t : Purge} (h : (Thread.purge t).stuck o s i) : t.next o s = none :=
  Option.map_eq_none_iff.mp (h .ok)

theorem stuck.ticktock {t : Ticktock} (h : (Thread.ticktock t).stuck o s i) : t.next s = none :=
  Option.map_eq_none_iff.mp (h .ok)

theorem stuck.release {t : Release} (h : (Thread.release t).stuck o s i) :
    t.next o i s .ok = none :=
  Option.map_eq_none_iff.mp (h .ok)

theorem stuck.reboot {t : Reboot} (h : (Thread.reboot t).stuck o s i) : t.next o s = none :=
  Option.map_eq_none_iff.mp (h .ok)

theorem stuck.tune {t : Tune} (h : (Thread.tune t).stuck o s i) : t.next o s = none :=
  Option.map_eq_none_iff.mp (h .ok)

theorem stuck.rests_submit {t : Submit} (h : (Thread.submit t).stuck o s i)
    (hl : s.locked = false) : Rests o s (.submit t) := by
  have hn := h.submit
  obtain ⟨p, b, pc⟩ := t
  cases pc with
  | ok => exact .ok
  | err => exact .err
  | parked g => exact .parked (Option.map_eq_none_iff.mp hn)
  | readRunning c =>
      simp only [Submit.next] at hn
      split_ifs at hn
  | recheck =>
      simp only [Submit.next] at hn
      split_ifs at hn
  | lock | woken => simp [Submit.next, hl] at hn
  | checkClosed | readCap | spawn | run | park | input => cases hn

theorem stuck.rests_work {t : Work} (h : (Thread.work t).stuck o s i) (hl : s.locked = false) :
    Rests o s (.work t) := by
  have hn := h.work
  obtain ⟨w, b, pc⟩ := t
  cases pc with
  | returned => exact .returned
  | unwound => exact .unwound
  | recv =>
      refine .recv ?_
      simp only [Work.next, Work.recv] at hn
      split at hn
      · assumption
      · split at hn <;> cases hn
  | call p =>
      simp only [Work.next] at hn
      split_ifs at hn
  | revertLock =>
      simp only [Work.next, hl, Bool.false_eq_true, if_false] at hn
      split_ifs at hn
  | _ => cases hn

theorem stuck.rests_release {t : Release} (h : (Thread.release t).stuck o s i)
    (hl : t.pc = .reset → s.locked = false) : Rests o s (.release t) := by
  have hn := h.release
  obtain ⟨m, p, k, pc⟩ := t
  cases pc with
  | returned => exact .released
  | exchange =>
      simp only [Release.next] at hn
      split_ifs at hn
  | takePurge | takeTicktock =>
      simp only [Release.next] at hn
      split at hn <;> cases hn
  | reset => simp [Release.next, hl rfl] at hn
  | waitPurgeCtx e =>
      simp only [Release.next] at hn
      split_ifs at hn
      split at hn
      · cases hn
      · split_ifs at hn with he
        exact .purgeCtx rfl (by simpa using he)
  | waitTicktockCtx e =>
      simp only [Release.next] at hn
      split at hn
      · cases hn
      · split_ifs at hn with he
        exact .ticktockCtx rfl (by simpa using he)
  | _ => cases hn

theorem stuck.rests_reboot {t : Reboot} (h : (Thread.reboot t).stuck o s i) :
    Rests o s (.reboot t) := by
  have hn := h.reboot
  cases t with
  | returned => exact .rebooted
  | latchWait e =>
      simp only [Reboot.next] at hn
      split_ifs at hn with he
      exact .latch (by simpa using he)
  | waitPurge =>
      simp only [Reboot.next] at hn
      split_ifs at hn with he
      simp only [not_or, Bool.not_eq_true] at he
      exact .purgeDone he.1 he.2
  | waitTicktock =>
      simp only [Reboot.next] at hn
      split_ifs at hn with he
      exact .ticktockDone (by simpa using he)
  | exchange =>
      simp only [Reboot.next] at hn
      split_ifs at hn
  | _ => cases hn

/-- With the lock free a thread that can take no step is at its end or at one of the
blocking places. The clock can always take one. -/
theorem stuck.rests {t : Thread} (h : t.stuck o s i) (hl : s.locked = false) : Rests o s t := by
  cases t with
  | submit t => exact h.rests_submit hl
  | work t => exact h.rests_work hl
  | release t => exact h.rests_release fun _ => hl
  | reboot t => exact h.rests_reboot
  | purge t =>
      have hn := h.purge
      cases t with
      | returned => exact .purge
      | panicked => exact .died
      | start =>
          simp only [Purge.next] at hn
          split at hn <;> cases hn
      | refresh =>
          simp only [Purge.next, hl, Bool.false_eq_true, if_false] at hn
          split at hn <;> cases hn
      | finish c stale b => cases stale <;> cases hn
      | _ => cases hn
  | ticktock t =>
      have hn := h.ticktock
      cases t with
      | returned => exact .ticktock
      | start =>
          simp only [Ticktock.next] at hn
          split at hn <;> cases hn
      | _ => cases hn
  | tune t =>
      have hn := h.tune
      cases t with
      | returned => exact .tuned
      | readCap size =>
          simp only [Tune.next] at hn
          split_ifs at hn
      | _ => cases hn
  | clock => cases h (.time 0)

/-! ## The spin lock -/

/-- How many steps a critical section still has, at most. -/
def lockSteps : Thread → ℕ
  | .submit ⟨_, _, .recheck⟩ => 5
  | .submit ⟨_, _, .readCap⟩ => 4
  | .submit ⟨_, _, .readRunning _⟩ => 3
  | .submit ⟨_, _, .spawn⟩ => 2
  | .submit ⟨_, _, .run _⟩ | .submit ⟨_, _, .park⟩ | .work ⟨_, _, .insert⟩ => 1
  | _ => 0

theorem lockSteps_le (t : Thread) : t.lockSteps ≤ 5 := by
  unfold lockSteps
  split <;> omega

/-- Every step of the holder brings it nearer to the end of its critical section. -/
theorem Step.lockSteps {s' : PoolCore} {t t' : Thread} {new : List Thread}
    (h : Thread.Step o i s t s' t' new) (hold : t.holdsLock = true) :
    t'.lockSteps + 1 ≤ t.lockSteps := by
  cases h with
  | submit h =>
      cases h with
      | unlimited | bounded | room | overload | enlist | spawnCached | spawnNew | run | parkLeaves
      | parkBlocks | recheckClosed | recheckSome | recheckNone => simp [Thread.lockSteps]
      | _ => cases hold
  | work h =>
      cases h with
      | insertOk | insertFull => simp [Thread.lockSteps]
      | _ => cases hold
  | _ => cases hold

/-- The holder of the spin lock is never blocked. -/
theorem not_stuck_of_holdsLock {t : Thread} (hold : t.holdsLock = true) (a : Env) :
    ∃ r, (program o).next s i t a = some r := by
  cases t with
  | submit t =>
      have hn : ∃ r, t.next o s = some r := by
        obtain ⟨p, b, pc⟩ := t
        cases pc with
        | readRunning c =>
            simp only [Submit.next]
            split_ifs <;> exact ⟨_, rfl⟩
        | recheck =>
            simp only [Submit.next]
            split_ifs <;> exact ⟨_, rfl⟩
        | readCap | spawn | run | park => exact ⟨_, rfl⟩
        | _ => cases hold
      obtain ⟨r, hr⟩ := hn
      exact ⟨_, congrArg (Option.map _) hr⟩
  | work t =>
      obtain ⟨w, b, pc⟩ := t
      cases pc with
      | insert => exact ⟨_, rfl⟩
      | _ => cases hold
  | _ => cases hold

end Thread

/-- Thread `i` is in a critical section. -/
def holding (i : ℕ) : Guard := fun x _ => ∃ t, x.threads[i]? = some t ∧ t.holdsLock = true

namespace Run
variable {o : Options} {x : Config}

/-- A lock that is held has a holder. -/
theorem exists_holder {G : Guard} (h : Run o G x) (hl : x.shared.locked = true) :
    ∃ (i : ℕ) (t : Thread), x.threads[i]? = some t ∧ t.holdsLock = true := by
  have hcount := h.lock_eq
  rw [if_pos hl] at hcount
  have hpos : 0 < x.threads.countP Thread.holdsLock := by omega
  obtain ⟨t, ht, hold⟩ := List.countP_pos_iff.mp hpos
  obtain ⟨i, hi⟩ := List.mem_iff_getElem?.mp ht
  exact ⟨i, t, hi, hold⟩

end Run

/-- A holder is through its critical section after five steps, however many steps the
others take meanwhile. -/
theorem steps_le_of_holding {o : Options} {x₀ x : Config} {i : ℕ}
    {h : List (Event PoolCore Thread Call Env)}
    (hx : (program o).Trace (fun z => z = x₀) (holding i) h x) :
    h.countP (Event.isStepOf i) ≤ 5 ∧
      ∀ t, x.threads[i]? = some t → h.countP (Event.isStepOf i) + t.lockSteps ≤ 5 := by
  refine Program.Trace.invariant (J := fun h x => h.countP (Event.isStepOf i) ≤ 5 ∧
    ∀ t, x.threads[i]? = some t → h.countP (Event.isStepOf i) + t.lockSteps ≤ 5) ?_ ?_ ?_ hx
  · intro y _
    exact ⟨Nat.zero_le 5, fun t _ => (zero_add _).trans_le t.lockSteps_le⟩
  · intro h y c _ hy hg
    rw [List.countP_cons_of_neg (by simp [Event.isStepOf])]
    refine ⟨hy.1, fun t ht => ?_⟩
    obtain ⟨u, hu, _⟩ := hg
    have hlt := (List.getElem?_eq_some_iff.mp hu).1
    rw [Program.entered, List.getElem?_append_left hlt] at ht
    exact hy.2 t ht
  · intro h y j a u r _ hy hg hu hn
    obtain ⟨v, hv, hold⟩ := hg
    rcases eq_or_ne i j with rfl | hij
    · cases Option.some.inj (hu.symm.trans hv)
      have hstep := (program_step hn).lockSteps hold
      have hbefore := hy.2 u hu
      rw [List.countP_cons_of_pos (by simp [Event.isStepOf])]
      refine ⟨by omega, fun t ht => ?_⟩
      rw [Config.getElem?_after_self hu] at ht
      cases ht
      omega
    · rw [List.countP_cons_of_neg (by simpa [Event.isStepOf] using hij.symm)]
      refine ⟨hy.1, fun t ht => ?_⟩
      rw [Config.getElem?_after_ne hij hv] at ht
      cases ht
      exact hy.2 v hv

/-- While the spin lock is held exactly one thread holds it, and that thread can take its
next step. However the others go on meanwhile, a holder takes no more than five steps
before it releases the lock. -/
theorem lock_is_released {o : Options} {x₀ : Config} (h₀ : Run o anyMove x₀) :
    (x₀.shared.locked = true → ∃ i t, x₀.threads[i]? = some t ∧ t.holdsLock = true ∧
      (∀ j u, x₀.threads[j]? = some u → u.holdsLock = true → j = i) ∧
      ∀ a, ∃ r, (program o).next x₀.shared i t a = some r) ∧
    ∀ i h x, (program o).Trace (fun z => z = x₀) (holding i) h x →
      h.countP (Event.isStepOf i) ≤ 5 := by
  constructor
  · intro hl
    obtain ⟨i, t, hi, hold⟩ := h₀.exists_holder hl
    exact ⟨i, t, hi, hold, fun j u hj hu => h₀.holder_unique hj hi hu hold,
      Thread.not_stuck_of_holdsLock hold⟩
  · exact fun i h x hx => (steps_le_of_holding hx).1

/-- One caller has the lock of a small pool and a second one spins. -/
def contendedPool : Config :=
  ((program smallOptions).run anyMove smallPool
    (.call (.submit false) :: steps 2 2 ++ .call (.submit false) :: steps 3 1)).get (by decide)

theorem lock_is_released_small :
    (program smallOptions).next contendedPool.shared 3
        (.submit { payload := ⟨3, false⟩, pc := .lock }) .ok = none ∧
      ∃ i t, contendedPool.threads[i]? = some t ∧ t.holdsLock = true ∧
        ∀ a, ∃ r, (program smallOptions).next contendedPool.shared i t a = some r := by
  have hrun : Run smallOptions anyMove contendedPool :=
    Program.Reach.run (.init smallPool_starts) (Option.some_get _).symm
  obtain ⟨i, t, ht, hold, _, hgoes⟩ := (lock_is_released hrun).1 (by decide)
  exact ⟨rfl, i, t, ht, hold, hgoes⟩

end AntsPool
