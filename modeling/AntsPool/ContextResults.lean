import AntsPool.Contexts

/-!
# What the calls on a context say

A context only ever goes on: from live to expired with the clock, and to canceled when
its event is closed. A call reads the event and the clock at different times, so what
it returns is the status at some time between its call and its return.
-/
namespace AntsPool.Contexts
open Interleaving Condvars

def Status.rank : Status → ℕ
  | .live => 0
  | .expired => 1
  | .canceled => 2

/-- What stays true of a context as it goes on. -/
structure Later (s s' : Inner) : Prop where
  deadline : s'.deadline = s.deadline
  now : s.now ≤ s'.now
  closed : s.cancelled.data = true → s'.cancelled.data = true

namespace Later
variable {s s' : Inner}

theorem pastDeadline (h : Later s s') (hp : s.pastDeadline = true) : s'.pastDeadline = true := by
  simp only [Inner.pastDeadline, h.deadline, Option.any_eq_true, decide_eq_true_eq] at hp ⊢
  obtain ⟨d, hd, hle⟩ := hp
  exact ⟨d, hd, hle.trans h.now⟩

end Later

theorem status_canceled_iff {s : Inner} : s.status = .canceled ↔ s.cancelled.data = true := by
  unfold Inner.status
  cases s.cancelled.data <;> cases s.pastDeadline <;> simp

theorem status_ne_live_iff {s : Inner} :
    s.status ≠ .live ↔ s.cancelled.data = true ∨ s.pastDeadline = true := by
  unfold Inner.status
  cases s.cancelled.data <;> cases s.pastDeadline <;> simp

theorem status_expired {s : Inner} (h : s.status = .expired) : s.pastDeadline = true := by
  unfold Inner.status at h
  split at h
  · cases h
  · split at h
    · assumption
    · cases h

theorem Later.rank_le {s s' : Inner} (h : Later s s') : s.status.rank ≤ s'.status.rank := by
  have hclosed := h.closed
  have hpast := h.pastDeadline
  unfold Inner.status
  cases hc : s.cancelled.data <;> cases hp : s.pastDeadline
  · exact Nat.zero_le _
  · rw [hpast hp]
    cases s'.cancelled.data <;> decide
  all_goals
    rw [hclosed hc]
    exact le_rfl

/-- The context has come from what a thread found. -/
structure Found.Fits (at₀ : Found) (s : Inner) : Prop where
  now_le : at₀.now ≤ s.now
  canceled : at₀.status = .canceled → s.cancelled.data = true
  expired : at₀.status = .expired → s.pastDeadline = true

/-- A bounded wait that ends at `e` has lasted its timeout or past the deadline. -/
def Ends (s : Inner) (at₀ : Found) (timeout e : ℕ) : Prop :=
  at₀.now + timeout ≤ e ∨ ∃ d, s.deadline = some d ∧ d ≤ e

/-- What a call of the event is about to return. -/
def EventCall.Returns (s : Inner) (at₀ : Found) (c : EventCall) (closed : Bool) : Prop :=
  if closed then s.cancelled.data = true
  else
    at₀.status ≠ .canceled ∧
      match c with
      | .isClosed => True
      | .waitTimeout deadline => deadline ≤ s.now
      | _ => False

def EventPc.Fits (s : Inner) (at₀ : Found) (c : EventCall) : EventPc → Prop
  | .lock | .test => True
  | .sleep => c = .wait ∨ ∃ d, c = .waitTimeout d
  | .notify => s.cancelled.data = true
  | .unlock closed => c.Returns s at₀ closed

/-- Where a function can be, and what it has found out so far. -/
def Task.Fits (s : Inner) (at₀ : Found) : Task → Pc → Prop
  | .cancel, .event .close pc => pc.Fits s at₀ .close
  | .isDone, .event .isClosed pc | .err, .event .isClosed pc => pc.Fits s at₀ .isClosed
  | .isDone, .pastDeadline | .err, .pastDeadline => at₀.status ≠ .canceled
  | .waitDoneFor _, .remaining => True
  | .waitDoneFor t, .arm r => Ends s at₀ t (s.now + r)
  | .waitDoneFor t, .event (.waitTimeout e) pc =>
      pc.Fits s at₀ (.waitTimeout e) ∧ Ends s at₀ t e
  | .recheck t, .event .isClosed pc => pc.Fits s at₀ .isClosed ∧ Ends s at₀ t s.now
  | .recheck t, .pastDeadline => at₀.status ≠ .canceled ∧ Ends s at₀ t s.now
  | .wait n, .event .isClosed pc =>
      pc.Fits s at₀ .isClosed ∧ n ≤ 1 ∧ (0 < n → s.pastDeadline = true)
  | .wait n, .pastDeadline => n ≤ 1 ∧ (0 < n → s.pastDeadline = true)
  | .wait n, .remaining => n = 0
  | .waitTimed n, .arm r => n = 0 ∧ ∃ d, s.deadline = some d ∧ d ≤ s.now + r
  | .waitTimed n, .event (.waitTimeout e) pc =>
      pc.Fits s at₀ (.waitTimeout e) ∧ n = 0 ∧ ∃ d, s.deadline = some d ∧ d ≤ e
  | .waitForever, .event .wait pc => pc.Fits s at₀ .wait ∧ s.deadline = none
  | .eventWait, .event .wait pc => pc.Fits s at₀ .wait
  | .eventWaitTimeout t, .arm r => at₀.now + t ≤ s.now + r
  | .eventWaitTimeout t, .event (.waitTimeout e) pc =>
      pc.Fits s at₀ (.waitTimeout e) ∧ at₀.now + t ≤ e
  | _, _ => False

/-- What a function may return, by the context at its call and now. -/
def Function.Right (s : Inner) (at₀ : Found) : Function → Outcome → Prop
  | .cancel, .unit => s.status = .canceled
  | .isDone, .done b => (at₀.status ≠ .live → b = true) ∧ (b = true → s.status ≠ .live)
  | .err, .error e =>
      ∃ st : Status, e = st.error ∧ at₀.status.rank ≤ st.rank ∧ st.rank ≤ s.status.rank
  | .waitDoneFor t, .done b =>
      (at₀.status ≠ .live → b = true) ∧ (b = true → s.status ≠ .live) ∧
        (b = false → at₀.now + t ≤ s.now)
  | .wait, .unit => s.status ≠ .live
  | .eventWait, .unit => s.status = .canceled
  | .eventWaitTimeout t, .done b =>
      (at₀.status = .canceled → b = true) ∧ (b = true → s.status = .canceled) ∧
        (b = false → at₀.now + t ≤ s.now)
  | _, _ => False

def Thread.Fits (s : Inner) : Thread → Prop
  | .running at₀ k pc => at₀.Fits s ∧ k.Fits s at₀ pc
  | .returned at₀ f r => at₀.Fits s ∧ f.Right s at₀ r
  | _ => True

/-! ## As the context goes on -/

section Mono
variable {s s' : Inner} {at₀ : Found}

theorem Later.refl (s : Inner) : Later s s := ⟨rfl, le_rfl, id⟩

theorem Found.Fits.mono (h : at₀.Fits s) (hl : Later s s') : at₀.Fits s' :=
  ⟨h.now_le.trans hl.now, fun hc => hl.closed (h.canceled hc),
    fun he => hl.pastDeadline (h.expired he)⟩

theorem Found.Fits.rank_le (h : at₀.Fits s) : at₀.status.rank ≤ s.status.rank := by
  cases hst : at₀.status with
  | live => exact Nat.zero_le _
  | expired =>
      have hlive := status_ne_live_iff.mpr (.inr (h.expired hst))
      cases hs : s.status with
      | live => exact (hlive hs).elim
      | _ => decide
  | canceled => rw [status_canceled_iff.mpr (h.canceled hst)]

theorem Ends.mono {t e e' : ℕ} (h : Ends s at₀ t e) (hl : Later s s') (he : e ≤ e') :
    Ends s' at₀ t e' := by
  rcases h with h | ⟨d, hd, hle⟩
  · exact .inl (h.trans he)
  · exact .inr ⟨d, hl.deadline.trans hd, hle.trans he⟩

theorem EventCall.Returns.mono {c : EventCall} {b : Bool} (h : c.Returns s at₀ b)
    (hl : Later s s') : c.Returns s' at₀ b := by
  cases b with
  | true => exact hl.closed h
  | false =>
      refine ⟨h.1, ?_⟩
      cases c with
      | isClosed => trivial
      | waitTimeout d => exact h.2.trans hl.now
      | _ => exact h.2

theorem EventPc.Fits.mono {c : EventCall} {pc : EventPc} (h : pc.Fits s at₀ c)
    (hl : Later s s') : pc.Fits s' at₀ c := by
  cases pc with
  | lock | test => trivial
  | sleep => exact h
  | notify => exact hl.closed h
  | unlock b => exact EventCall.Returns.mono h hl

theorem Task.Fits.mono {k : Task} {pc : Pc} (h : k.Fits s at₀ pc) (hl : Later s s') :
    k.Fits s' at₀ pc := by
  unfold Task.Fits at h ⊢
  split at h
  · exact EventPc.Fits.mono h hl
  · exact EventPc.Fits.mono h hl
  · exact EventPc.Fits.mono h hl
  · exact h
  · exact h
  · trivial
  · exact h.mono hl (Nat.add_le_add_right hl.now _)
  · exact ⟨h.1.mono hl, h.2.mono hl le_rfl⟩
  · exact ⟨h.1.mono hl, h.2.mono hl hl.now⟩
  · exact ⟨h.1, h.2.mono hl hl.now⟩
  · exact ⟨h.1.mono hl, h.2.1, fun hn => hl.pastDeadline (h.2.2 hn)⟩
  · exact ⟨h.1, fun hn => hl.pastDeadline (h.2 hn)⟩
  · exact h
  · obtain ⟨hn, d, hd, hle⟩ := h
    exact ⟨hn, d, hl.deadline.trans hd, hle.trans (Nat.add_le_add_right hl.now _)⟩
  · obtain ⟨hpc, hn, d, hd, hle⟩ := h
    exact ⟨hpc.mono hl, hn, d, hl.deadline.trans hd, hle⟩
  · exact ⟨h.1.mono hl, hl.deadline.trans h.2⟩
  · exact EventPc.Fits.mono h hl
  · exact h.trans (Nat.add_le_add_right hl.now _)
  · exact ⟨h.1.mono hl, h.2⟩
  · exact h

theorem Later.status_ne_live (hl : Later s s') (h : s.status ≠ .live) : s'.status ≠ .live := by
  rw [status_ne_live_iff] at h ⊢
  exact h.imp hl.closed hl.pastDeadline

theorem Later.status_canceled (hl : Later s s') (h : s.status = .canceled) :
    s'.status = .canceled :=
  status_canceled_iff.mpr (hl.closed (status_canceled_iff.mp h))

theorem Function.Right.mono {f : Function} {r : Outcome} (h : f.Right s at₀ r)
    (hl : Later s s') : f.Right s' at₀ r := by
  unfold Function.Right at h ⊢
  split at h
  · exact hl.status_canceled h
  · exact ⟨h.1, fun hb => hl.status_ne_live (h.2 hb)⟩
  · obtain ⟨st, he, hle, hle'⟩ := h
    exact ⟨st, he, hle, hle'.trans hl.rank_le⟩
  · exact ⟨h.1, fun hb => hl.status_ne_live (h.2.1 hb), fun hb => (h.2.2 hb).trans hl.now⟩
  · exact hl.status_ne_live h
  · exact hl.status_canceled h
  · exact ⟨h.1, fun hb => hl.status_canceled (h.2.1 hb), fun hb => (h.2.2 hb).trans hl.now⟩
  · exact h

theorem Thread.Fits.mono {t : Thread} (h : t.Fits s) (hl : Later s s') : t.Fits s' := by
  cases t with
  | running at₀ k pc => exact ⟨h.1.mono hl, h.2.mono hl⟩
  | returned at₀ f r => exact ⟨h.1.mono hl, h.2.mono hl⟩
  | _ => trivial

end Mono

/-! ## What a step finds out -/

section Steps
variable {s s' : Inner} {at₀ : Found} {i : ℕ}

theorem EventPc.Step.later {w : Room Bool} {c : EventCall} {pc : EventPc} {r : EventPc ⊕ Bool}
    (h : EventPc.Step s.cancelled s.now i c pc w r) : Later s { s with cancelled := w } := by
  refine ⟨rfl, le_rfl, fun hd => ?_⟩
  cases h with
  | close => rfl
  | _ => exact hd

/-- A call that finds the event open was made on a context not canceled. -/
theorem EventPc.Step.fits {w : Room Bool} {c : EventCall} {pc pc' : EventPc}
    (h : EventPc.Step s.cancelled s.now i c pc w (.inl pc')) (h₀ : at₀.Fits s)
    (hpc : pc.Fits s at₀ c) : pc'.Fits { s with cancelled := w } at₀ c := by
  have hopen (hd : s.cancelled.data = false) : at₀.status ≠ .canceled :=
    fun hc => Bool.false_ne_true (hd.symm.trans (h₀.canceled hc))
  cases h with
  | lock | resume => trivial
  | closed hd => exact hd
  | close => rfl
  | isOpen hd => exact ⟨hopen hd, trivial⟩
  | sleep => exact .inl rfl
  | elapsed hd ht => exact ⟨hopen hd, ht⟩
  | sleepTimed => exact .inr ⟨_, rfl⟩
  | wake | notify => exact hpc

/-- After the deadline, or without, a context not found canceled was found live. -/
theorem Found.Fits.live (h : at₀.Fits s) (hc : at₀.status ≠ .canceled)
    (hp : s.pastDeadline = false) : at₀.status = .live := by
  cases hst : at₀.status with
  | live => rfl
  | expired =>
      rw [h.expired hst] at hp
      cases hp
  | canceled => exact (hc hst).elim

theorem Ends.of_live {t : ℕ} (h : Ends s at₀ t s.now) (hp : s.pastDeadline = false) :
    at₀.now + t ≤ s.now := by
  refine h.resolve_right fun hpast => ?_
  obtain ⟨d, hd, hle⟩ := hpast
  simp [Inner.pastDeadline, hd, hle] at hp

theorem pastDeadline_of_deadline {d : ℕ} (hd : s.deadline = some d) (hle : d ≤ s.now) :
    s.pastDeadline = true := by
  simp [Inner.pastDeadline, hd, hle]

theorem ne_live_of_closed (h : s.cancelled.data = true) : s.status ≠ .live :=
  status_ne_live_iff.mpr (.inl h)

theorem Task.Fits.resume {k : Task} {c : EventCall} {b : Bool} (h₀ : at₀.Fits s)
    (h : k.Fits s at₀ (.event c (.unlock b))) : (k.resume at₀ b).Fits s := by
  cases k with
  | cancel =>
      cases c with
      | close =>
          cases b with
          | true => exact ⟨h₀, status_canceled_iff.mpr h⟩
          | false => exact h.2.elim
      | _ => exact h.elim
  | isDone =>
      cases c with
      | isClosed =>
          cases b with
          | true => exact ⟨h₀, fun _ => rfl, fun _ => ne_live_of_closed h⟩
          | false => exact ⟨h₀, h.1⟩
      | _ => exact h.elim
  | err =>
      cases c with
      | isClosed =>
          cases b with
          | true =>
              have hs := status_canceled_iff.mpr h
              exact ⟨h₀, .canceled, rfl, hs ▸ h₀.rank_le, hs ▸ le_rfl⟩
          | false => exact ⟨h₀, h.1⟩
      | _ => exact h.elim
  | waitDoneFor t =>
      cases c with
      | waitTimeout e =>
          cases b with
          | true => exact ⟨h₀, fun _ => rfl, fun _ => ne_live_of_closed h.1, nofun⟩
          | false => exact ⟨h₀, trivial, h.2.mono (.refl s) h.1.2⟩
      | _ => exact h.elim
  | recheck t =>
      cases c with
      | isClosed =>
          cases b with
          | true => exact ⟨h₀, fun _ => rfl, fun _ => ne_live_of_closed h.1, nofun⟩
          | false => exact ⟨h₀, h.1.1, h.2⟩
      | _ => exact h.elim
  | wait n =>
      cases c with
      | isClosed =>
          cases b with
          | true => exact ⟨h₀, ne_live_of_closed h.1⟩
          | false => exact ⟨h₀, h.2⟩
      | _ => exact h.elim
  | waitTimed n =>
      cases c with
      | waitTimeout e =>
          obtain ⟨hret, rfl, d, hd, hle⟩ := h
          cases b with
          | true => exact ⟨h₀, ne_live_of_closed hret⟩
          | false =>
              -- the wait went on to the deadline
              have hpast := pastDeadline_of_deadline hd (hle.trans hret.2)
              exact ⟨h₀, trivial, le_rfl, fun _ => hpast⟩
      | _ => exact h.elim
  | waitForever =>
      cases c with
      | wait =>
          cases b with
          | true => exact ⟨h₀, ne_live_of_closed h.1⟩
          | false => exact h.1.2.elim
      | _ => exact h.elim
  | eventWait =>
      cases c with
      | wait =>
          cases b with
          | true => exact ⟨h₀, status_canceled_iff.mpr h⟩
          | false => exact h.2.elim
      | _ => exact h.elim
  | eventWaitTimeout t =>
      cases c with
      | waitTimeout e =>
          cases b with
          | true => exact ⟨h₀, fun _ => rfl, fun _ => status_canceled_iff.mpr h.1, nofun⟩
          | false => exact ⟨h₀, fun hc => (h.1.1 hc).elim, nofun, fun _ => h.2.trans h.1.2⟩
      | _ => exact h.elim

theorem Task.Fits.decide {k : Task} {t : Thread} (h₀ : at₀.Fits s)
    (h : k.Fits s at₀ .pastDeadline) (hd : k.decide at₀ s.pastDeadline = some t) : t.Fits s := by
  cases k with
  | isDone =>
      cases hd
      refine ⟨h₀, fun hlive => ?_, fun hp => status_ne_live_iff.mpr (.inr hp)⟩
      by_contra hp
      exact hlive (h₀.live h (by simpa using hp))
  | err =>
      cases hd
      cases hp : s.pastDeadline with
      | true =>
          refine ⟨h₀, .expired, rfl, ?_, ?_⟩
          · cases hst : at₀.status with
            | canceled => exact (h hst).elim
            | _ => decide
          · have hlive := status_ne_live_iff.mpr (.inr hp)
            cases hs : s.status with
            | live => exact (hlive hs).elim
            | _ => decide
      | false =>
          refine ⟨h₀, .live, rfl, ?_, Nat.zero_le _⟩
          rw [h₀.live h hp]
  | recheck d =>
      cases hd
      refine ⟨h₀, fun hlive => ?_, fun hp => status_ne_live_iff.mpr (.inr hp), h.2.of_live⟩
      by_contra hp
      exact hlive (h₀.live h.1 (by simpa using hp))
  | wait n =>
      cases hd
      cases hp : s.pastDeadline with
      | true => exact ⟨h₀, status_ne_live_iff.mpr (.inr hp)⟩
      | false =>
          refine ⟨h₀, ?_⟩
          by_contra hn
          have hpast := h.2 (Nat.pos_of_ne_zero hn)
          rw [hp] at hpast
          cases hpast
  | _ => cases hd

theorem Task.Fits.bound {k : Task} {t : Thread} (h₀ : at₀.Fits s)
    (h : k.Fits s at₀ .remaining) (hd : k.bound at₀ s = some t) : t.Fits s := by
  cases k with
  | waitDoneFor d =>
      cases hd
      refine ⟨h₀, ?_⟩
      have hle := h₀.now_le
      cases hdl : s.deadline with
      | none => exact .inl (Nat.add_le_add_right hle d)
      | some e =>
          rcases le_total d (e - s.now) with hd | hd
          · exact .inl (by simp only; omega)
          · exact .inr ⟨e, hdl, by simp only; omega⟩
  | wait n =>
      simp only [Task.bound] at hd
      split at hd
      · rename_i e hdl
        cases hd
        exact ⟨h₀, h, e, hdl, by omega⟩
      · rename_i hdl
        cases hd
        exact ⟨h₀, trivial, hdl⟩
  | _ => cases hd

theorem Task.Fits.arm {k : Task} {r : ℕ} (h : k.Fits s at₀ (.arm r)) :
    k.Fits s at₀ (.event (.waitTimeout (s.now + r)) .lock) := by
  cases k with
  | waitDoneFor t | waitTimed n | eventWaitTimeout t => exact ⟨trivial, h⟩
  | _ => exact h

theorem Task.Fits.event {k : Task} {c : EventCall} {pc pc' : EventPc} {w : Room Bool}
    (hs : EventPc.Step s.cancelled s.now i c pc w (.inl pc')) (h₀ : at₀.Fits s)
    (h : k.Fits s at₀ (.event c pc)) :
    k.Fits { s with cancelled := w } at₀ (.event c pc') := by
  have hmono := h.mono hs.later
  have hpc (hf : pc.Fits s at₀ c) := hs.fits h₀ hf
  cases k with
  | cancel | isDone | err | eventWait =>
      cases c with
      | close | isClosed | wait =>
          first
          | exact hpc h
          | exact h.elim
      | waitTimeout e => exact h.elim
  | waitDoneFor t | waitTimed n | eventWaitTimeout t =>
      cases c with
      | waitTimeout e => exact ⟨hpc h.1, hmono.2⟩
      | _ => exact h.elim
  | recheck t | wait n =>
      cases c with
      | isClosed => exact ⟨hpc h.1, hmono.2⟩
      | _ => exact h.elim
  | waitForever =>
      cases c with
      | wait => exact ⟨hpc h.1, hmono.2⟩
      | _ => exact h.elim

theorem Function.begin_fits (f : Function) (s : Inner) :
    (Thread.running ⟨s.status, s.now⟩ f.begin.1 f.begin.2).Fits s := by
  refine ⟨⟨le_rfl, status_canceled_iff.mp, status_expired⟩, ?_⟩
  cases f with
  | wait => exact ⟨trivial, Nat.zero_le 1, nofun⟩
  | eventWaitTimeout t => exact le_rfl
  | _ => trivial

theorem Thread.Step.fits {t t' : Thread} (hs : Thread.Step s i t s' t') (h : t.Fits s) :
    Later s s' ∧ t'.Fits s' := by
  cases hs with
  | tick => exact ⟨⟨rfl, Nat.le_add_right _ _, id⟩, trivial⟩
  | begin => exact ⟨.refl s, Function.begin_fits _ s⟩
  | bound hb => exact ⟨.refl s, h.2.bound h.1 hb⟩
  | arm => exact ⟨.refl s, h.1, h.2.arm⟩
  | event he => exact ⟨he.later, h.1.mono he.later, h.2.event he h.1⟩
  | resume he =>
      refine ⟨he.later, ?_⟩
      have hb := h.mono he.later
      cases he with
      | unlock => exact hb.2.resume hb.1
  | decide hd => exact ⟨.refl s, h.2.decide h.1 hd⟩

end Steps

theorem Reached.fits {x : State} (h : Reached x) {t : Thread} (ht : t ∈ x.threads) :
    t.Fits x.shared := by
  obtain ⟨i, hi⟩ := List.mem_iff_getElem?.mp ht
  refine (Program.Reach.invariant_threads (J := fun _ => True) (φ := fun s _ t => t.Fits s)
    ?_ ?_ ?_ h).2 i t hi
  · rintro y ⟨deadline, now, rfl⟩
    refine ⟨trivial, fun j u hu => ?_⟩
    obtain rfl := List.mem_singleton.mp (List.mem_of_getElem? hu)
    trivial
  · exact fun _ _ _ _ _ => trivial
  · intro y i a t r _ _ hall _ ht hn
    obtain ⟨hs, hnew⟩ := threads_step hn
    obtain ⟨hlater, hfits⟩ := hs.fits (hall i t ht)
    refine ⟨trivial, hfits, fun u hu => ?_, fun j u _ hu => (hall j u hu).mono hlater⟩
    rw [hnew] at hu
    cases hu

/-- In every run, whatever the clock and the other threads do meanwhile, a call that has
returned was right: `is_done` and `err` tell a status between the one at the call and the
one at the return, so that two calls in a row never go back and a cancellation wins over
the deadline; `wait` returns on a context that is done, and so does `wait_done_for` when
it says so, and otherwise it has lasted its timeout. -/
theorem calls_return_right {x : State} (h : Reached x) {at₀ : Found} {f : Function} {r : Outcome}
    (ht : .returned at₀ f r ∈ x.threads) :
    at₀.status.rank ≤ x.shared.status.rank ∧ f.Right x.shared at₀ r :=
  ⟨(h.fits ht).1.rank_le, (h.fits ht).2⟩

/-- `err` is called on a live context and reads the clock after the deadline. -/
theorem calls_return_right_small :
    ∃ x, Reached x ∧ ∃ at₀ e, .returned at₀ .err (.error (some e)) ∈ x.threads ∧
      at₀.status = .live ∧ at₀.status.rank ≤ x.shared.status.rank ∧
      Function.err.Right x.shared at₀ (.error (some e)) := by
  obtain ⟨x, hx, hφ⟩ := Program.Reach.exists_of_run
    (P := threads) (I := Initial) (G := fun _ _ => True)
    (x := ⟨⟨⟨false, false, []⟩, some 5, 0⟩, [.clock]⟩)
    (m := [.call .err, .step 1 .go, .step 1 .go, .step 1 .go, .step 1 .go, .step 0 (.tick 5),
      .step 1 .go])
    (φ := fun x => decide (.returned ⟨.live, 0⟩ .err (.error (some .deadlineExceeded)) ∈ x.threads))
    ⟨_, _, rfl⟩ (by decide)
  have hmem := of_decide_eq_true hφ
  obtain ⟨hrank, hright⟩ := calls_return_right hx hmem
  exact ⟨x, hx, _, _, hmem, rfl, hrank, hright⟩

/-! ## Waits that end -/

theorem Task.Fits.eventPc {s : Inner} {at₀ : Found} {k : Task} {c : EventCall} {pc : EventPc}
    (h : k.Fits s at₀ (.event c pc)) : pc.Fits s at₀ c := by
  cases k with
  | cancel | isDone | err | eventWait =>
      cases c <;> first | exact h | exact h.elim
  | waitDoneFor t | waitTimed n | eventWaitTimeout t | recheck t | wait n | waitForever =>
      cases c <;> first | exact h.1 | exact h.elim

/-- Who holds the event's mutex can always go on. -/
theorem next_of_holds {s : Inner} {i : ℕ} {t : Thread} (h : t.phase.holds = true) :
    threads.next s i t .go ≠ none := by
  cases t with
  | running at₀ k pc =>
      cases pc with
      | event c pc =>
          cases pc with
          | test =>
              cases c with
              | waitTimeout d =>
                  simp only [threads, Thread.next, EventPc.next]
                  split
                  · exact Option.some_ne_none _
                  · split <;> exact Option.some_ne_none _
              | close | wait =>
                  simp only [threads, Thread.next, EventPc.next]
                  split <;> exact Option.some_ne_none _
              | isClosed => exact Option.some_ne_none _
          | notify | unlock => exact Option.some_ne_none _
          | _ => cases h
      | _ => cases h
  | _ => cases h

namespace AtRest
variable {x : State}

theorem next_eq_none (h : AtRest x) {i : ℕ} {t : Thread} (ht : x.threads[i]? = some t) :
    threads.next x.shared i t .go = none ∧ threads.next x.shared i t .timeout = none := by
  have hnone := h i
  simp only [Program.fire, ht, Option.map_eq_none_iff] at hnone
  exact hnone

theorem holds_eq_false (h : AtRest x) {q : Phase Unit}
    (hq : q ∈ (Discipline.seen Inner.cancelled Thread.phase x).threads) : q.holds = false := by
  obtain ⟨t, ht, rfl⟩ := List.mem_map.mp hq
  obtain ⟨i, hi⟩ := List.mem_iff_getElem?.mp ht
  by_contra hb
  exact next_of_holds (by simpa using hb) (h.next_eq_none hi).1

/-- Only sleepers are left, on an open event and before their timeout. -/
theorem sleeps (h : AtRest x) {i : ℕ} {at₀ : Found} {k : Task} {pc : Pc}
    (hi : x.threads[i]? = some (.running at₀ k pc)) (hk : k.Fits x.shared at₀ pc)
    (hheld : x.shared.cancelled.held = false) :
    i ∈ x.shared.cancelled.asleep ∧ ∃ c, pc = .event c .sleep ∧
      (c = .wait ∨ ∃ d, c = .waitTimeout d ∧ x.shared.now < d) := by
  obtain ⟨hgo, htimeout⟩ := h.next_eq_none hi
  cases pc with
  | remaining =>
      cases k with
      | waitDoneFor t => cases hgo
      | wait n =>
          simp only [threads, Thread.next, Task.bound] at hgo
          split at hgo <;> cases hgo
      | _ => exact hk.elim
  | arm r => cases hgo
  | pastDeadline =>
      cases k with
      | isDone | err | recheck t | wait n => cases hgo
      | _ => exact hk.elim
  | event c pc =>
      have hpc := hk.eventPc
      cases pc with
      | lock => simp [threads, Thread.next, EventPc.next, hheld] at hgo
      | sleep =>
          have hin : i ∈ x.shared.cancelled.asleep := by
            by_contra hin
            simp [threads, Thread.next, EventPc.next, hheld, hin] at hgo
          rcases hpc with rfl | ⟨d, rfl⟩
          · exact ⟨hin, .wait, rfl, .inl rfl⟩
          · refine ⟨hin, .waitTimeout d, rfl, .inr ⟨d, rfl, ?_⟩⟩
            by_contra hle
            simp [threads, Thread.next, EventPc.next, hin, not_lt.mp hle] at htimeout
      | test => exact (next_of_holds (by cases c <;> rfl) hgo).elim
      | notify | unlock => exact (next_of_holds rfl hgo).elim

end AtRest

theorem Reached.rounds_le {x : State} (h : Reached x) {at₀ : Found} {k : Task} {pc : Pc}
    (ht : .running at₀ k pc ∈ x.threads) {n : ℕ} (hk : k = .wait n ∨ k = .waitTimed n) :
    n ≤ 1 := by
  have hfits := (h.fits ht).2
  rcases hk with rfl | rfl
  · cases pc with
    | remaining =>
        obtain rfl : n = 0 := hfits
        exact Nat.zero_le 1
    | pastDeadline => exact hfits.1
    | event c pc => cases c <;> first | exact hfits.2.1 | exact hfits.elim
    | arm r => exact hfits.elim
  · have hzero : n = 0 := by
      cases pc with
      | arm r => exact hfits.1
      | event c pc => cases c <;> first | exact hfits.2.1 | exact hfits.elim
      | _ => exact hfits.elim
    exact hzero ▸ Nat.zero_le 1

theorem Reached.held_of_atRest {x : State} (h : Reached x) (hrest : AtRest x) :
    x.shared.cancelled.held = false :=
  h.sound.free fun _ => hrest.holds_eq_false

/-- A sleeper at rest finds the event open. -/
theorem Reached.open_of_atRest {x : State} (h : Reached x) (hrest : AtRest x) {at₀ : Found}
    {k : Task} {c : EventCall} (ht : .running at₀ k (.event c .sleep) ∈ x.threads) :
    x.shared.cancelled.data = false := by
  refine h.sound.idle (k := ()) (fun q => hrest.holds_eq_false) (fun j _ hj => ?_)
    (List.mem_map.mpr ⟨_, ht, rfl⟩)
  obtain ⟨t, hj, hphase⟩ := Option.map_eq_some_iff.mp (List.getElem?_map.symm.trans hj)
  cases t with
  | running at₁ k₁ pc₁ =>
      exact (hrest.sleeps hj (h.fits (List.mem_of_getElem? hj)).2 (h.held_of_atRest hrest)).1
  | _ => cases hphase

/-- The clock and the calls that have returned or sleep before their timeout. -/
def allRest (x : State) : Bool :=
  x.threads.zipIdx.all fun p =>
    match p.1 with
    | .clock | .returned _ _ _ => true
    | .running _ _ (.event c .sleep) =>
        decide (p.2 ∈ x.shared.cancelled.asleep) &&
          match c with
          | .waitTimeout d => decide (x.shared.now < d)
          | _ => true
    | _ => false

theorem atRest_of_allRest {x : State} (h : allRest x = true) : AtRest x := by
  intro i
  simp only [Program.fire]
  cases ht : x.threads[i]? with
  | none => exact ⟨rfl, rfl⟩
  | some t =>
      have hrests := List.all_eq_true.mp h (t, i) (List.mem_zipIdx_iff_getElem?.mpr ht)
      simp only [Option.map_eq_none_iff]
      split at hrests
      · rename_i hp
        obtain rfl : t = .clock := hp
        exact ⟨rfl, rfl⟩
      · rename_i hp
        obtain rfl := hp
        exact ⟨rfl, rfl⟩
      · rename_i c hp
        obtain rfl := hp
        rw [Bool.and_eq_true, decide_eq_true_eq] at hrests
        obtain ⟨hin, hc⟩ := hrests
        cases c with
        | waitTimeout d =>
            have hlt : ¬ d ≤ x.shared.now := by simpa using hc
            simp [threads, Thread.next, EventPc.next, hin, hlt]
        | _ => simp [threads, Thread.next, EventPc.next, hin]
      · cases hrests

/-- The waits end: `wait` goes round at most twice, and when no thread can go on as long
as the time stands still, the mutex is free and whoever has not returned sleeps on an
event that is open, before its timeout if it has one. -/
theorem waits_end {x : State} (h : Reached x) :
    (∀ at₀ k pc, .running at₀ k pc ∈ x.threads → ∀ n, k = .wait n ∨ k = .waitTimed n → n ≤ 1) ∧
      (AtRest x → x.shared.cancelled.held = false ∧ ∀ t ∈ x.threads,
        t = .clock ∨ (∃ at₀ f r, t = .returned at₀ f r) ∨
          ∃ at₀ k c, t = .running at₀ k (.event c .sleep) ∧ x.shared.cancelled.data = false ∧
            (c = .wait ∨ ∃ d, c = .waitTimeout d ∧ x.shared.now < d)) := by
  refine ⟨fun at₀ k pc ht n hk => h.rounds_le ht hk, fun hrest => ?_⟩
  refine ⟨h.held_of_atRest hrest, fun t ht => ?_⟩
  obtain ⟨i, hi⟩ := List.mem_iff_getElem?.mp ht
  cases t with
  | clock => exact .inl rfl
  | called f => cases (hrest.next_eq_none hi).1
  | returned at₀ f r => exact .inr (.inl ⟨at₀, f, r, rfl⟩)
  | running at₀ k pc =>
      obtain ⟨_, c, rfl, hc⟩ := hrest.sleeps hi (h.fits ht).2 (h.held_of_atRest hrest)
      exact .inr (.inr ⟨at₀, k, c, rfl, h.open_of_atRest hrest ht, hc⟩)

/-- A `wait` sleeps up to a deadline and another one up to a cancellation. -/
theorem waits_end_small :
    ∃ x, Reached x ∧ AtRest x ∧ x.shared.cancelled.held = false ∧
      ∃ at₀ k pc, .running at₀ k pc ∈ x.threads ∧ x.shared.cancelled.data = false := by
  obtain ⟨x, hx, hφ⟩ := Program.Reach.exists_of_run
    (P := threads) (I := Initial) (G := fun _ _ => True)
    (x := ⟨⟨⟨false, false, []⟩, some 5, 0⟩, [.clock]⟩)
    (m := [.call .wait, .step 1 .go, .step 1 .go, .step 1 .go, .step 1 .go, .step 1 .go,
      .step 1 .go, .step 1 .go, .step 1 .go, .step 1 .go, .call .eventWait, .step 2 .go,
      .step 2 .go, .step 2 .go])
    (φ := fun x => allRest x && decide (.running ⟨.live, 0⟩ .eventWait (.event .wait .sleep) ∈
      x.threads)) ⟨_, _, rfl⟩ (by decide)
  simp only [Bool.and_eq_true, decide_eq_true_eq] at hφ
  have hrest := atRest_of_allRest hφ.1
  obtain ⟨hheld, hall⟩ := (waits_end hx).2 hrest
  rcases hall _ hφ.2 with h | ⟨_, _, _, h⟩ | ⟨_, _, _, h, hopen, _⟩
  · cases h
  · cases h
  · exact ⟨x, hx, hrest, hheld, _, _, _, hφ.2, hopen⟩

end AntsPool.Contexts
