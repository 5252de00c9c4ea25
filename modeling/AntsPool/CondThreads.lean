import AntsPool.CondClients
import AntsPool.Condvars

/-!
# The condition variable on a mutex

`deps/cond.rs` step by step. The bookkeeping lies behind a mutex of its own with the
condition variable of the standard library, on which a sleeper may also wake for no
reason. A waiter takes the mutex while it still holds the caller's lock, registers,
gives the caller's lock back, and takes that lock again only when it has dropped the
mutex.

The threads are those of `CondClients`, and as there a producer changes the count in
the step in which it signals.
-/
namespace AntsPool

namespace Cond

/-- What `signal` notifies. -/
def signalNotice (c : Cond) : Condvars.Notice := if c.tokens < c.parked then .one else .none

def broadcastNotice (c : Cond) : Condvars.Notice := if 0 < c.parked then .all else .none

section Laws
variable {c d : Cond} {g n : ℕ} {a : Condvars.Notice}

theorem poll_none_iff : c.poll g = none ↔ c.tokens = 0 ∧ ¬ c.generation ≠ g := by
  refine ⟨fun h => ?_, fun h => ?_⟩
  · obtain ⟨ht, hg⟩ := poll_none h
    exact ⟨ht, not_not.mpr hg⟩
  · obtain ⟨ht, hg⟩ := h
    simp only [poll, ht, lt_irrefl, if_false, hg]

theorem tokens_of_poll (h : c.poll g = some d) : d.tokens ≤ c.tokens - 1 := by
  have htokens := (poll_some h).2.2
  omega

theorem parked_of_poll (h : c.poll g = some d) (hn : c.parked = n + 1) : d.parked = n := by
  rw [(poll_some h).2.1, hn, Nat.add_sub_cancel]

/-- What a notifier does, with the notice it owes. -/
def Notifies (c d : Cond) (a : Condvars.Notice) : Prop :=
  (d = c.signal ∧ a = c.signalNotice) ∨ (d = c.broadcast ∧ a = c.broadcastNotice)

theorem Notifies.parked (h : c.Notifies d a) (hn : c.parked = n) : d.parked = n := by
  rcases h with ⟨rfl, _⟩ | ⟨rfl, _⟩
  · rw [signal_parked, hn]
  · rw [broadcast_parked, hn]

theorem Notifies.none_tokens (h : c.Notifies d .none) : d.tokens ≤ c.tokens := by
  rcases h with ⟨rfl, hn⟩ | ⟨rfl, hn⟩
  · unfold signalNotice at hn
    split at hn
    · cases hn
    · rename_i hle
      simp only [signal, hle, if_false, le_refl]
  · unfold broadcastNotice at hn
    split at hn
    · cases hn
    · rename_i hle
      simp only [broadcast, hle, if_false, le_refl]

theorem Notifies.one_tokens (h : c.Notifies d .one) : d.tokens ≤ c.tokens + 1 := by
  rcases h with ⟨rfl, _⟩ | ⟨rfl, hn⟩
  · rcases c.signal_tokens with ⟨_, h⟩ | ⟨_, h⟩ <;> omega
  · unfold broadcastNotice at hn
    split at hn <;> cases hn

theorem Notifies.all_tokens (h : c.Notifies d .all) : d.tokens = 0 := by
  rcases h with ⟨rfl, hn⟩ | ⟨rfl, hn⟩
  · unfold signalNotice at hn
    split at hn <;> cases hn
  · unfold broadcastNotice at hn
    split at hn
    · rename_i hpos
      simp only [broadcast, hpos, if_true]
    · cases hn

theorem Notifies.tokens_le (h : c.Notifies d a) (hn : c.parked = n) (hle : c.tokens ≤ n) :
    d.tokens ≤ n := by
  rcases h with ⟨rfl, _⟩ | ⟨rfl, _⟩
  · rcases c.signal_tokens with ⟨_, h⟩ | ⟨_, h⟩ <;> omega
  · unfold broadcast
    split
    · exact Nat.zero_le n
    · exact hle

theorem Notifies.generation (h : c.Notifies d a) (ha : a ≠ .all) :
    d.generation = c.generation := by
  rcases h with ⟨rfl, _⟩ | ⟨rfl, rfl⟩
  · exact signal_generation c
  · unfold broadcastNotice at ha
    split at ha
    · exact (ha rfl).elim
    · rename_i hle
      simp only [broadcast, hle, if_false]

end Laws

/-- The tokens are what waiters still have to take, one at a time. -/
def discipline : Condvars.Discipline Cond ℕ where
  enter c d g := d = c.register ∧ g = c.generation
  leave c g d := c.poll g = some d
  idle c g := c.poll g = none
  change := Notifies
  need := tokens
  stale c g := c.generation ≠ g
  tracks c n := c.parked = n
  idle_iff := poll_none_iff
  need_enter h := h.1 ▸ le_rfl
  stale_enter h hj hg := hj (h.1 ▸ hg)
  tracks_enter h hn := h.1 ▸ congrArg (· + 1) hn
  need_leave := tokens_of_poll
  stale_leave h hj hg := hj ((poll_some h).1.trans hg)
  tracks_leave := parked_of_poll
  tracks_change := Notifies.parked
  need_none := Notifies.none_tokens
  need_one := Notifies.one_tokens
  need_all := Notifies.all_tokens
  need_change := Notifies.tokens_le
  stale_change h ha hj hg := hj ((h.generation ha).trans hg)

end Cond

namespace CondThreads
open Interleaving Condvars CondClients

structure Monitor where
  waiters : Room Cond := ⟨Cond.new, false, []⟩
  locked : Bool := false
  units : ℕ := 0
deriving Repr, DecidableEq

/-- Where a waiter stands: `enter` takes the mutex, `register` to `pass` hold it. -/
inductive WaiterPc
  | lock
  | test (again : Bool)
  | enter
  | register
  | dropGuard (generation : ℕ)
  | pass (generation : ℕ)
  | sleep (generation : ℕ)
  | dropWaiters
  | relock
  | held
  | returned
deriving Repr, DecidableEq

inductive Caller
  | producer
  | signal
  | broadcast
deriving Repr, DecidableEq

inductive CallerPc
  | lock
  | enter
  | change
  | notify (n : Notice)
  | drop
  | unlock
  | returned
deriving Repr, DecidableEq

inductive Thread
  | waiter (consumes : Bool) (pc : WaiterPc)
  | caller (c : Caller) (pc : CallerPc)
deriving Repr, DecidableEq

/-- What the environment decides: which sleeper is notified, and that one wakes
without a notice. -/
inductive Choice
  | go
  | notified (i : ℕ)
  | spurious
deriving Repr, DecidableEq

/-- The bookkeeping after the critical section of `signal` or `broadcast`, and what
it notifies. -/
def Caller.change (c : Cond) : Caller → Cond × Notice
  | .producer | .signal => (c.signal, c.signalNotice)
  | .broadcast => (c.broadcast, c.broadcastNotice)

def Caller.units : Caller → ℕ
  | .producer => 1
  | _ => 0

/-- Only a producer holds the caller's lock. -/
def Caller.afterDrop : Caller → CallerPc
  | .producer => .unlock
  | _ => .returned

def WaiterPc.next (s : Monitor) (i : ℕ) (a : Choice) (consumes : Bool) :
    WaiterPc → Option (Monitor × WaiterPc)
  | .lock =>
      if s.locked then none
      else some ({ s with locked := true }, if consumes then .test false else .enter)
  | .test _ =>
      if 0 < s.units then some ({ s with units := s.units - 1, locked := false }, .returned)
      else some (s, .enter)
  | .enter =>
      if s.waiters.held then none
      else some ({ s with waiters := { s.waiters with held := true } }, .register)
  | .register =>
      some ({ s with waiters := { s.waiters with data := s.waiters.data.register } },
        .dropGuard s.waiters.data.generation)
  | .dropGuard g => some ({ s with locked := false }, .pass g)
  | .pass g =>
      match s.waiters.data.poll g with
      | some c => some ({ s with waiters := { s.waiters with data := c } }, .dropWaiters)
      | none =>
          some ({ s with waiters := { s.waiters with held := false,
                                                     asleep := i :: s.waiters.asleep } },
            .sleep g)
  | .sleep g =>
      if i ∈ s.waiters.asleep then
        if a = .spurious then
          some ({ s with waiters := { s.waiters with asleep := s.waiters.asleep.erase i } },
            .sleep g)
        else none
      else if s.waiters.held then none
      else some ({ s with waiters := { s.waiters with held := true } }, .pass g)
  | .dropWaiters => some ({ s with waiters := { s.waiters with held := false } }, .relock)
  | .relock =>
      if s.locked then none
      else some ({ s with locked := true }, if consumes then .test true else .held)
  | .held => some ({ s with locked := false }, .returned)
  | .returned => none

def CallerPc.next (s : Monitor) (a : Choice) (c : Caller) : CallerPc → Option (Monitor × CallerPc)
  | .lock => if s.locked then none else some ({ s with locked := true }, .enter)
  | .enter =>
      if s.waiters.held then none
      else some ({ s with waiters := { s.waiters with held := true } }, .change)
  | .change =>
      let r := c.change s.waiters.data
      some ({ s with waiters := { s.waiters with data := r.1 }, units := s.units + c.units },
        .notify r.2)
  | .notify .none => some (s, .drop)
  | .notify .one =>
      match s.waiters.asleep, a with
      | [], _ => some (s, .drop)
      | _, .notified j =>
          if j ∈ s.waiters.asleep then
            some ({ s with waiters := { s.waiters with asleep := s.waiters.asleep.erase j } },
              .drop)
          else none
      | _, _ => none
  | .notify .all => some ({ s with waiters := { s.waiters with asleep := [] } }, .drop)
  | .drop => some ({ s with waiters := { s.waiters with held := false } }, c.afterDrop)
  | .unlock => some ({ s with locked := false }, .returned)
  | .returned => none

def Thread.next (s : Monitor) (i : ℕ) (a : Choice) : Thread → Option (Monitor × Thread)
  | .waiter b pc => (pc.next s i a b).map fun r => (r.1, .waiter b r.2)
  | .caller c pc => (pc.next s a c).map fun r => (r.1, .caller c r.2)

def start : Request → Thread
  | .wait => .waiter false .lock
  | .consume => .waiter true .lock
  | .produce => .caller .producer .lock
  | .signal => .caller .signal .enter
  | .broadcast => .caller .broadcast .enter

def threads : Program Monitor Thread Request Choice where
  start _ r := start r
  next s i t a := (t.next s i a).map fun r => (r.1, r.2, [])

abbrev State := Config Monitor Thread

def Initial (x : State) : Prop := ∃ n, x = ⟨{ units := n }, []⟩

abbrev Reached (G : State → Move Request Choice → Prop) (x : State) : Prop :=
  threads.Reach Initial G x

/-- No thread can go on unless one wakes without a notice. -/
def AtRest (x : State) : Prop :=
  ∀ (i : ℕ) (a : Choice), a ≠ .spurious → threads.fire x (.step i a) = none

/-! ## What a step can do -/

inductive Thread.Step (s : Monitor) (i : ℕ) : Thread → Monitor → Thread → Prop
  | lockTest (hl : s.locked = false) :
      Step s i (.waiter true .lock) { s with locked := true } (.waiter true (.test false))
  | lockWait (hl : s.locked = false) :
      Step s i (.waiter false .lock) { s with locked := true } (.waiter false .enter)
  | take {b again} (hu : 0 < s.units) :
      Step s i (.waiter b (.test again)) { s with units := s.units - 1, locked := false }
        (.waiter b .returned)
  | empty {b again} (hu : s.units = 0) :
      Step s i (.waiter b (.test again)) s (.waiter b .enter)
  | enter {b} (hw : s.waiters.held = false) :
      Step s i (.waiter b .enter) { s with waiters := { s.waiters with held := true } }
        (.waiter b .register)
  | register {b} :
      Step s i (.waiter b .register)
        { s with waiters := { s.waiters with data := s.waiters.data.register } }
        (.waiter b (.dropGuard s.waiters.data.generation))
  | dropGuard {b g} :
      Step s i (.waiter b (.dropGuard g)) { s with locked := false } (.waiter b (.pass g))
  | leave {b g c} (hp : s.waiters.data.poll g = some c) :
      Step s i (.waiter b (.pass g)) { s with waiters := { s.waiters with data := c } }
        (.waiter b .dropWaiters)
  | sleep {b g} (hp : s.waiters.data.poll g = none) :
      Step s i (.waiter b (.pass g))
        { s with waiters := { s.waiters with held := false, asleep := i :: s.waiters.asleep } }
        (.waiter b (.sleep g))
  | spurious {b g} :
      Step s i (.waiter b (.sleep g))
        { s with waiters := { s.waiters with asleep := s.waiters.asleep.erase i } }
        (.waiter b (.sleep g))
  | resume {b g} (hw : s.waiters.held = false) (hi : i ∉ s.waiters.asleep) :
      Step s i (.waiter b (.sleep g)) { s with waiters := { s.waiters with held := true } }
        (.waiter b (.pass g))
  | dropWaiters {b} :
      Step s i (.waiter b .dropWaiters) { s with waiters := { s.waiters with held := false } }
        (.waiter b .relock)
  | relockTest (hl : s.locked = false) :
      Step s i (.waiter true .relock) { s with locked := true } (.waiter true (.test true))
  | relockHeld (hl : s.locked = false) :
      Step s i (.waiter false .relock) { s with locked := true } (.waiter false .held)
  | unhold {b} : Step s i (.waiter b .held) { s with locked := false } (.waiter b .returned)
  | lockCall {c} (hl : s.locked = false) :
      Step s i (.caller c .lock) { s with locked := true } (.caller c .enter)
  | enterCall {c} (hw : s.waiters.held = false) :
      Step s i (.caller c .enter) { s with waiters := { s.waiters with held := true } }
        (.caller c .change)
  | change {c} :
      Step s i (.caller c .change)
        { s with waiters := { s.waiters with data := (c.change s.waiters.data).1 },
                 units := s.units + c.units }
        (.caller c (.notify (c.change s.waiters.data).2))
  | quiet {c} : Step s i (.caller c (.notify .none)) s (.caller c .drop)
  | nobody {c} (hw : s.waiters.asleep = []) :
      Step s i (.caller c (.notify .one)) s (.caller c .drop)
  | one {c j} (hj : j ∈ s.waiters.asleep) :
      Step s i (.caller c (.notify .one))
        { s with waiters := { s.waiters with asleep := s.waiters.asleep.erase j } }
        (.caller c .drop)
  | all {c} :
      Step s i (.caller c (.notify .all)) { s with waiters := { s.waiters with asleep := [] } }
        (.caller c .drop)
  | drop {c} :
      Step s i (.caller c .drop) { s with waiters := { s.waiters with held := false } }
        (.caller c c.afterDrop)
  | unlock {c} : Step s i (.caller c .unlock) { s with locked := false } (.caller c .returned)

theorem WaiterPc.next_step {s : Monitor} {i : ℕ} {a : Choice} {b : Bool} {pc : WaiterPc}
    {r : Monitor × WaiterPc} (h : pc.next s i a b = some r) :
    Thread.Step s i (.waiter b pc) r.1 (.waiter b r.2) := by
  cases pc with
  | lock =>
      simp only [next] at h
      split at h
      · cases h
      · rename_i hl
        cases h
        cases b with
        | true => exact .lockTest (by simpa using hl)
        | false => exact .lockWait (by simpa using hl)
  | test again =>
      simp only [next] at h
      split at h
      · rename_i hu
        cases h
        exact .take hu
      · rename_i hu
        cases h
        exact .empty (by omega)
  | enter =>
      simp only [next] at h
      split at h
      · cases h
      · rename_i hw
        cases h
        exact .enter (by simpa using hw)
  | register =>
      cases h
      exact .register
  | dropGuard g =>
      cases h
      exact .dropGuard
  | pass g =>
      simp only [next] at h
      split at h
      · rename_i c hp
        cases h
        exact .leave hp
      · rename_i hp
        cases h
        exact .sleep hp
  | sleep g =>
      simp only [next] at h
      split at h
      · split at h
        · cases h
          exact .spurious
        · cases h
      · rename_i hi
        split at h
        · cases h
        · rename_i hw
          cases h
          exact .resume (by simpa using hw) hi
  | dropWaiters =>
      cases h
      exact .dropWaiters
  | relock =>
      simp only [next] at h
      split at h
      · cases h
      · rename_i hl
        cases h
        cases b with
        | true => exact .relockTest (by simpa using hl)
        | false => exact .relockHeld (by simpa using hl)
  | held =>
      cases h
      exact .unhold
  | returned => cases h

theorem CallerPc.next_step {s : Monitor} {i : ℕ} {a : Choice} {c : Caller} {pc : CallerPc}
    {r : Monitor × CallerPc} (h : pc.next s a c = some r) :
    Thread.Step s i (.caller c pc) r.1 (.caller c r.2) := by
  cases pc with
  | lock =>
      simp only [next] at h
      split at h
      · cases h
      · rename_i hl
        cases h
        exact .lockCall (by simpa using hl)
  | enter =>
      simp only [next] at h
      split at h
      · cases h
      · rename_i hw
        cases h
        exact .enterCall (by simpa using hw)
  | change =>
      cases h
      exact .change
  | notify n =>
      cases n with
      | none =>
          cases h
          exact .quiet
      | one =>
          simp only [next] at h
          split at h
          · rename_i hw
            cases h
            exact .nobody hw
          · split at h
            · rename_i hj
              cases h
              exact .one hj
            · cases h
          · cases h
      | all =>
          cases h
          exact .all
  | drop =>
      cases h
      exact .drop
  | unlock =>
      cases h
      exact .unlock
  | returned => cases h

theorem threads_step {s : Monitor} {i : ℕ} {t : Thread} {a : Choice}
    {r : Monitor × Thread × List Thread} (h : threads.next s i t a = some r) :
    Thread.Step s i t r.1 r.2.1 ∧ r.2.2 = [] := by
  obtain ⟨q, hq, rfl⟩ := Option.map_eq_some_iff.mp h
  refine ⟨?_, rfl⟩
  cases t with
  | waiter b pc =>
      obtain ⟨p, hp, rfl⟩ := Option.map_eq_some_iff.mp hq
      exact pc.next_step hp
  | caller c pc =>
      obtain ⟨p, hp, rfl⟩ := Option.map_eq_some_iff.mp hq
      exact pc.next_step hp

/-! ## The waiters' room -/

/-- Where a thread stands towards the mutex and its condition variable. -/
def Thread.phase : Thread → Phase ℕ
  | .waiter _ .register | .waiter _ .dropWaiters | .caller _ .change | .caller _ .drop => .inside
  | .waiter _ (.dropGuard g) | .waiter _ (.pass g) => .testing g
  | .waiter _ (.sleep g) => .waiting g
  | .caller _ (.notify n) => .notifying n
  | _ => .away

theorem Caller.change_discipline (c : Caller) (d : Cond) :
    Cond.discipline.change d (c.change d).1 (c.change d).2 := by
  cases c with
  | broadcast => exact .inr ⟨rfl, rfl⟩
  | _ => exact .inl ⟨rfl, rfl⟩

theorem Thread.Step.room {s s' : Monitor} {i : ℕ} {t t' : Thread}
    (h : Thread.Step s i t s' t') :
    Cond.discipline.Steps i s.waiters t.phase s'.waiters t'.phase := by
  cases h with
  | enter hw | enterCall hw => exact .tail .refl (.acquire hw)
  | register => exact .tail .refl (.enter ⟨rfl, rfl⟩)
  | leave hp => exact .tail .refl (.leave hp)
  | sleep hp => exact .tail .refl (.sleep hp)
  | spurious => exact .tail .refl .spurious
  | resume hw hi => exact .tail .refl (.resume hw hi)
  | dropWaiters => exact .tail .refl .release
  | @change c => exact .tail .refl (.change (c.change_discipline _))
  | quiet => exact .tail .refl .quiet
  | nobody hw => exact .tail .refl (.nobody hw)
  | one hj => exact .tail .refl (.one hj)
  | all => exact .tail .refl .all
  | @drop c =>
      cases c with
      | _ => exact .tail .refl .release
  | _ => exact .refl

theorem follows : Cond.discipline.Follows threads Monitor.waiters Thread.phase where
  start i r := by cases r <;> rfl
  next s i t a r h := by
    obtain ⟨hs, hnew⟩ := threads_step h
    exact ⟨hs.room, hnew⟩

/-- The mutex and the sleepers as the discipline sees them. -/
abbrev room (x : State) : Config (Room Cond) (Phase ℕ) :=
  Discipline.seen Monitor.waiters Thread.phase x

theorem Reached.sound {G : State → Move Request Choice → Prop} {x : State}
    (h : Reached G x) : Cond.discipline.Sound (room x) := by
  refine follows.sound ?_ h
  rintro y ⟨n, rfl⟩
  exact ⟨rfl, List.nodup_nil, nofun, rfl, le_rfl, le_rfl, nofun⟩

end CondThreads

end AntsPool
