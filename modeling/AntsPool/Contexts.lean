import AntsPool.Condvars
import AntsPool.Errors

/-!
# Contexts and their event

A context is an event, closed by its cancellation, and perhaps a deadline. The calls
of `deps/context.rs` read the event and the clock one after the other and wait in
`wait_timeout` of `deps/event.rs`, behind a mutex with a condition variable, so other
threads and the clock come in between.

A thread remembers how it found the context when it was called; no step reads that.
Instants and durations are nanoseconds.
-/
namespace AntsPool

theorem open_iff {closed : Bool} : closed = false ↔ (0 : ℕ) = 0 ∧ ¬ closed = true :=
  ⟨fun h => ⟨rfl, Bool.eq_false_iff.mp h⟩, fun h => Bool.eq_false_iff.mpr h.2⟩

/-- `close` is the only change of an event, and it is for everybody. -/
def eventDiscipline : Condvars.Discipline Bool Unit where
  enter c d _ := d = c
  leave c _ d := d = c
  idle c _ := c = false
  change _ d n := d = true ∧ n = .all
  need _ := 0
  stale c _ := c = true
  tracks _ _ := True
  idle_iff := open_iff
  need_enter _ := le_rfl
  stale_enter h hj := h ▸ hj
  tracks_enter _ _ := trivial
  need_leave _ := Nat.zero_le _
  stale_leave h hj := h ▸ hj
  tracks_leave _ _ := trivial
  tracks_change _ _ := trivial
  need_none _ := le_rfl
  need_one _ := Nat.zero_le _
  need_all _ := rfl
  need_change _ _ h := h
  stale_change h hn _ := (hn h.2).elim

namespace Contexts
open Interleaving Condvars

inductive Status
  | live
  | expired
  | canceled
deriving Repr, DecidableEq

/-- Why a context is done, as `err` tells. -/
def Status.error : Status → Option Error
  | .live => none
  | .expired => some .deadlineExceeded
  | .canceled => some .canceled

/-- A context with the clock. -/
structure Inner where
  cancelled : Room Bool
  deadline : Option ℕ
  now : ℕ
deriving Repr, DecidableEq

namespace Inner

def pastDeadline (s : Inner) : Bool := s.deadline.any fun d => decide (d ≤ s.now)

def status (s : Inner) : Status :=
  if s.cancelled.data then .canceled else if s.pastDeadline then .expired else .live

end Inner

/-- The calls on a context, and the waits on an event alone. -/
inductive Function
  | cancel
  | isDone
  | err
  | waitDoneFor (timeout : ℕ)
  | wait
  | eventWait
  | eventWaitTimeout (timeout : ℕ)
deriving Repr, DecidableEq

/-- How far a function is: `recheck` is the `is_done` that ends `wait_done_for`, and the
number counts the rounds that `wait` has made. -/
inductive Task
  | cancel
  | isDone
  | err
  | waitDoneFor (timeout : ℕ)
  | recheck (timeout : ℕ)
  | wait (rounds : ℕ)
  | waitTimed (rounds : ℕ)
  | waitForever
  | eventWait
  | eventWaitTimeout (timeout : ℕ)
deriving Repr, DecidableEq

/-- A call of the event. -/
inductive EventCall
  | close
  | isClosed
  | wait
  | waitTimeout (deadline : ℕ)
deriving Repr, DecidableEq

inductive EventPc
  | lock
  | test
  | sleep
  | notify
  | unlock (closed : Bool)
deriving Repr, DecidableEq

inductive Pc
  | remaining
  | arm (timeout : ℕ)
  | event (c : EventCall) (pc : EventPc)
  | pastDeadline
deriving Repr, DecidableEq

inductive Outcome
  | unit
  | done (b : Bool)
  | error (e : Option Error)
deriving Repr, DecidableEq

/-- The context as a thread found it. -/
structure Found where
  status : Status
  now : ℕ
deriving Repr, DecidableEq

inductive Thread
  | clock
  | called (f : Function)
  | running (at₀ : Found) (k : Task) (pc : Pc)
  | returned (at₀ : Found) (f : Function) (r : Outcome)
deriving Repr, DecidableEq

/-- What the environment decides: how long the clock runs on, and what wakes a sleeper. -/
inductive Choice
  | go
  | timeout
  | spurious
  | tick (n : ℕ)
deriving Repr, DecidableEq

def Function.begin : Function → Task × Pc
  | .cancel => (.cancel, .event .close .lock)
  | .isDone => (.isDone, .event .isClosed .lock)
  | .err => (.err, .event .isClosed .lock)
  | .waitDoneFor t => (.waitDoneFor t, .remaining)
  | .wait => (.wait 0, .event .isClosed .lock)
  | .eventWait => (.eventWait, .event .wait .lock)
  | .eventWaitTimeout t => (.eventWaitTimeout t, .arm t)

/-- After the event's call returned `closed`. -/
def Task.resume (at₀ : Found) (closed : Bool) : Task → Thread
  | .cancel => .returned at₀ .cancel .unit
  | .isDone =>
      if closed then .returned at₀ .isDone (.done true) else .running at₀ .isDone .pastDeadline
  | .err =>
      if closed then .returned at₀ .err (.error (some .canceled))
      else .running at₀ .err .pastDeadline
  | .waitDoneFor t =>
      if closed then .returned at₀ (.waitDoneFor t) (.done true)
      else .running at₀ (.recheck t) (.event .isClosed .lock)
  | .recheck t =>
      if closed then .returned at₀ (.waitDoneFor t) (.done true)
      else .running at₀ (.recheck t) .pastDeadline
  | .wait n =>
      if closed then .returned at₀ .wait .unit else .running at₀ (.wait n) .pastDeadline
  | .waitTimed n =>
      if closed then .returned at₀ .wait .unit
      else .running at₀ (.wait (n + 1)) (.event .isClosed .lock)
  | .waitForever => .returned at₀ .wait .unit
  | .eventWait => .returned at₀ .eventWait .unit
  | .eventWaitTimeout t => .returned at₀ (.eventWaitTimeout t) (.done closed)

/-- After `past_deadline` returned `past`. -/
def Task.decide (at₀ : Found) (past : Bool) : Task → Option Thread
  | .isDone => some (.returned at₀ .isDone (.done past))
  | .err => some (.returned at₀ .err (.error (if past then some .deadlineExceeded else none)))
  | .recheck t => some (.returned at₀ (.waitDoneFor t) (.done past))
  | .wait n =>
      some (if past then .returned at₀ .wait .unit else .running at₀ (.wait n) .remaining)
  | _ => none

/-- After `remaining`. -/
def Task.bound (at₀ : Found) (s : Inner) : Task → Option Thread
  | .waitDoneFor t =>
      let bounded := match s.deadline with
        | some d => min (d - s.now) t
        | none => t
      some (.running at₀ (.waitDoneFor t) (.arm bounded))
  | .wait n =>
      match s.deadline with
      | some d => some (.running at₀ (.waitTimed n) (.arm (d - s.now)))
      | none => some (.running at₀ .waitForever (.event .wait .lock))
  | _ => none

/-- One step inside a call of the event: the mutex and the condition variable, and where
the call stands then or what it returns. -/
def EventPc.next (w : Room Bool) (now i : ℕ) (a : Choice) (c : EventCall) :
    EventPc → Option (Room Bool × (EventPc ⊕ Bool))
  | .lock => if w.held then none else some ({ w with held := true }, .inl .test)
  | .test =>
      match c with
      | .close =>
          if w.data then some (w, .inl (.unlock true))
          else some ({ w with data := true }, .inl .notify)
      | .isClosed => some (w, .inl (.unlock w.data))
      | .wait =>
          if w.data then some (w, .inl (.unlock true))
          else some ({ w with held := false, asleep := i :: w.asleep }, .inl .sleep)
      | .waitTimeout deadline =>
          if w.data then some (w, .inl (.unlock true))
          else if deadline ≤ now then some (w, .inl (.unlock false))
          else some ({ w with held := false, asleep := i :: w.asleep }, .inl .sleep)
  | .sleep =>
      if i ∈ w.asleep then
        match a, c with
        | .spurious, _ => some ({ w with asleep := w.asleep.erase i }, .inl .sleep)
        | .timeout, .waitTimeout deadline =>
            if deadline ≤ now then some ({ w with asleep := w.asleep.erase i }, .inl .sleep)
            else none
        | _, _ => none
      else if w.held then none
      else some ({ w with held := true }, .inl .test)
  | .notify => some ({ w with asleep := [] }, .inl (.unlock true))
  | .unlock closed => some ({ w with held := false }, .inr closed)

def Thread.next (s : Inner) (i : ℕ) (a : Choice) : Thread → Option (Inner × Thread)
  | .clock =>
      match a with
      | .tick n => some ({ s with now := s.now + n }, .clock)
      | _ => none
  | .called f => some (s, .running ⟨s.status, s.now⟩ f.begin.1 f.begin.2)
  | .running at₀ k .remaining => (k.bound at₀ s).map fun t => (s, t)
  | .running at₀ k (.arm timeout) =>
      some (s, .running at₀ k (.event (.waitTimeout (s.now + timeout)) .lock))
  | .running at₀ k (.event c pc) =>
      (pc.next s.cancelled s.now i a c).map fun r =>
        ({ s with cancelled := r.1 },
          match r.2 with
          | .inl pc' => .running at₀ k (.event c pc')
          | .inr closed => k.resume at₀ closed)
  | .running at₀ k .pastDeadline => (k.decide at₀ s.pastDeadline).map fun t => (s, t)
  | .returned _ _ _ => none

def threads : Program Inner Thread Function Choice where
  start _ f := .called f
  next s i t a := (t.next s i a).map fun r => (r.1, r.2, [])

abbrev State := Config Inner Thread

/-- A new context at any time, with the clock and no caller yet. -/
def Initial (x : State) : Prop :=
  ∃ deadline now, x = ⟨⟨⟨false, false, []⟩, deadline, now⟩, [.clock]⟩

abbrev Reached (x : State) : Prop := threads.Reach Initial (fun _ _ => True) x

/-- As long as the time stands still, no thread can go on unless one wakes for no reason. -/
def AtRest (x : State) : Prop :=
  ∀ (i : ℕ), threads.fire x (.step i .go) = none ∧ threads.fire x (.step i .timeout) = none

/-! ## What a step can do -/

inductive EventPc.Step (w : Room Bool) (now i : ℕ) :
    EventCall → EventPc → Room Bool → EventPc ⊕ Bool → Prop
  | lock {c} (hw : w.held = false) : Step w now i c .lock { w with held := true } (.inl .test)
  | closed {c} (hd : w.data = true) : Step w now i c .test w (.inl (.unlock true))
  | close (hd : w.data = false) :
      Step w now i .close .test { w with data := true } (.inl .notify)
  | isOpen (hd : w.data = false) : Step w now i .isClosed .test w (.inl (.unlock false))
  | sleep (hd : w.data = false) :
      Step w now i .wait .test { w with held := false, asleep := i :: w.asleep } (.inl .sleep)
  | elapsed {d} (hd : w.data = false) (ht : d ≤ now) :
      Step w now i (.waitTimeout d) .test w (.inl (.unlock false))
  | sleepTimed {d} (hd : w.data = false) (ht : now < d) :
      Step w now i (.waitTimeout d) .test { w with held := false, asleep := i :: w.asleep }
        (.inl .sleep)
  | wake {c} : Step w now i c .sleep { w with asleep := w.asleep.erase i } (.inl .sleep)
  | resume {c} (hw : w.held = false) (hi : i ∉ w.asleep) :
      Step w now i c .sleep { w with held := true } (.inl .test)
  | notify {c} : Step w now i c .notify { w with asleep := [] } (.inl (.unlock true))
  | unlock {c b} : Step w now i c (.unlock b) { w with held := false } (.inr b)

theorem EventPc.next_step {w : Room Bool} {now i : ℕ} {a : Choice} {c : EventCall} {pc : EventPc}
    {r : Room Bool × (EventPc ⊕ Bool)} (h : pc.next w now i a c = some r) :
    EventPc.Step w now i c pc r.1 r.2 := by
  cases pc with
  | lock =>
      simp only [next] at h
      split at h
      · cases h
      · rename_i hw
        cases h
        exact .lock (by simpa using hw)
  | test =>
      cases c with
      | isClosed =>
          cases h
          cases hd : w.data with
          | true => exact .closed hd
          | false => exact .isOpen hd
      | close =>
          simp only [next] at h
          split at h
          · rename_i hd
            cases h
            exact .closed hd
          · rename_i hd
            cases h
            exact .close (by simpa using hd)
      | wait =>
          simp only [next] at h
          split at h
          · rename_i hd
            cases h
            exact .closed hd
          · rename_i hd
            cases h
            exact .sleep (by simpa using hd)
      | waitTimeout d =>
          simp only [next] at h
          split at h
          · rename_i hd
            cases h
            exact .closed hd
          · rename_i hd
            have hd : w.data = false := by simpa using hd
            split at h
            · rename_i ht
              cases h
              exact .elapsed hd ht
            · rename_i ht
              cases h
              exact .sleepTimed hd (by omega)
  | sleep =>
      simp only [next] at h
      split at h
      · split at h
        · cases h
          exact .wake
        · split at h
          · cases h
            exact .wake
          · cases h
        · cases h
      · rename_i hi
        split at h
        · cases h
        · rename_i hw
          cases h
          exact .resume (by simpa using hw) hi
  | notify =>
      cases h
      exact .notify
  | unlock b =>
      cases h
      exact .unlock

/-- A step of a thread inside a function. -/
inductive Thread.Step (s : Inner) (i : ℕ) : Thread → Inner → Thread → Prop
  | tick {n} : Step s i .clock { s with now := s.now + n } .clock
  | begin {f} : Step s i (.called f) s (.running ⟨s.status, s.now⟩ f.begin.1 f.begin.2)
  | bound {at₀ k t} (h : k.bound at₀ s = some t) : Step s i (.running at₀ k .remaining) s t
  | arm {at₀ k r} :
      Step s i (.running at₀ k (.arm r)) s
        (.running at₀ k (.event (.waitTimeout (s.now + r)) .lock))
  | event {at₀ k c pc w pc'} (h : EventPc.Step s.cancelled s.now i c pc w (.inl pc')) :
      Step s i (.running at₀ k (.event c pc)) { s with cancelled := w }
        (.running at₀ k (.event c pc'))
  | resume {at₀ k c pc w b} (h : EventPc.Step s.cancelled s.now i c pc w (.inr b)) :
      Step s i (.running at₀ k (.event c pc)) { s with cancelled := w } (k.resume at₀ b)
  | decide {at₀ k t} (h : k.decide at₀ s.pastDeadline = some t) :
      Step s i (.running at₀ k .pastDeadline) s t

theorem threads_step {s : Inner} {i : ℕ} {t : Thread} {a : Choice}
    {r : Inner × Thread × List Thread} (h : threads.next s i t a = some r) :
    Thread.Step s i t r.1 r.2.1 ∧ r.2.2 = [] := by
  obtain ⟨q, hq, rfl⟩ := Option.map_eq_some_iff.mp h
  refine ⟨?_, rfl⟩
  cases t with
  | clock =>
      cases a with
      | tick n =>
          cases hq
          exact .tick
      | _ => cases hq
  | called f =>
      cases hq
      exact .begin
  | running at₀ k pc =>
      cases pc with
      | remaining =>
          obtain ⟨t, ht, rfl⟩ := Option.map_eq_some_iff.mp hq
          exact .bound ht
      | arm r =>
          cases hq
          exact .arm
      | event c pc =>
          obtain ⟨⟨w, pc' | b⟩, hp, rfl⟩ := Option.map_eq_some_iff.mp hq
          · exact .event (EventPc.next_step hp)
          · exact .resume (EventPc.next_step hp)
      | pastDeadline =>
          obtain ⟨t, ht, rfl⟩ := Option.map_eq_some_iff.mp hq
          exact .decide ht
  | returned at₀ f r => cases hq

/-! ## The event's room -/

def EventPc.phase (c : EventCall) : EventPc → Phase Unit
  | .lock => .away
  | .test =>
      match c with
      | .close | .isClosed => .inside
      | .wait | .waitTimeout _ => .testing ()
  | .sleep => .waiting ()
  | .notify => .notifying .all
  | .unlock _ => .inside

def Thread.phase : Thread → Phase Unit
  | .running _ _ (.event c pc) => pc.phase c
  | _ => .away

theorem EventPc.Step.room {w w' : Room Bool} {now i : ℕ} {c : EventCall} {pc : EventPc}
    {r : EventPc ⊕ Bool} (h : EventPc.Step w now i c pc w' r) :
    eventDiscipline.Steps i w (pc.phase c) w' (r.elim (EventPc.phase c) fun _ => .away) := by
  cases h with
  | lock hw =>
      have hlock := Discipline.Steps.tail (M := eventDiscipline) (i := i) .refl (.acquire hw)
      cases c with
      | close | isClosed => exact hlock
      | wait | waitTimeout d => exact .tail hlock (.enter rfl)
  | closed hd =>
      cases c with
      | close | isClosed => exact .refl
      | wait | waitTimeout d => exact .tail .refl (.leave rfl)
  | close hd => exact .tail .refl (.change ⟨rfl, rfl⟩)
  | isOpen hd => exact .refl
  | sleep hd | sleepTimed hd => exact .tail .refl (.sleep hd)
  | elapsed hd => exact .tail .refl (.leave rfl)
  | wake => exact .tail .refl .spurious
  | resume hw hi =>
      have hresume : eventDiscipline.Steps i w (.waiting ()) { w with held := true }
          (.testing ()) := .tail .refl (.resume hw hi)
      cases c with
      | close | isClosed => exact .tail hresume (.leave rfl)
      | wait | waitTimeout d => exact hresume
  | notify => exact .tail .refl .all
  | unlock => exact .tail .refl .release

theorem phase_resume (at₀ : Found) (b : Bool) (k : Task) : (k.resume at₀ b).phase = .away := by
  cases k <;> cases b <;> rfl

theorem phase_bound {at₀ : Found} {s : Inner} {k : Task} {t : Thread}
    (h : k.bound at₀ s = some t) : t.phase = .away := by
  cases k with
  | waitDoneFor d =>
      cases h
      rfl
  | wait n =>
      simp only [Task.bound] at h
      split at h <;> cases h <;> rfl
  | _ => cases h

theorem phase_decide {at₀ : Found} {b : Bool} {k : Task} {t : Thread}
    (h : k.decide at₀ b = some t) : t.phase = .away := by
  cases k with
  | isDone | err | recheck d =>
      cases h
      rfl
  | wait n =>
      cases h
      cases b <;> rfl
  | _ => cases h

theorem follows : eventDiscipline.Follows threads Inner.cancelled Thread.phase where
  start _ _ := rfl
  next s i t a r h := by
    obtain ⟨hs, hnew⟩ := threads_step h
    refine ⟨?_, hnew⟩
    generalize r.1 = s', r.2.1 = t' at hs
    cases hs with
    | tick | arm => exact .refl
    | @begin f => cases f <;> exact .refl
    | bound hb =>
        rw [phase_bound hb]
        exact .refl
    | event he => exact he.room
    | resume he =>
        rw [phase_resume]
        exact he.room
    | decide hd =>
        rw [phase_decide hd]
        exact .refl

theorem Reached.sound {x : State} (h : Reached x) :
    eventDiscipline.Sound (Discipline.seen Inner.cancelled Thread.phase x) := by
  refine follows.sound ?_ h
  rintro y ⟨deadline, now, rfl⟩
  exact ⟨rfl, List.nodup_nil, nofun, trivial, le_rfl, le_rfl, nofun⟩

end Contexts

end AntsPool
