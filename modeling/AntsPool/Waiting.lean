import AntsPool.Accounts

/-!
# Callers that have waited

A caller admitted to `Cond::wait` goes through the overload test again when it is
woken and finds no worker. It passes: it has given its place among the waiting back
and still has the lock, so the place is free for it.
-/
namespace AntsPool
open Interleaving

/-- Only an admitted caller raises `waiting`. -/
theorem Thread.Step.waiting_cases {o : Options} {i : ℕ} {s s' : PoolCore} {t t' : Thread}
    {new : List Thread} (h : Thread.Step o i s t s' t' new) :
    (∃ p b c, t = .submit ⟨p, b, .readRunning c⟩ ∧ Submit.overloaded o s = false ∧
      s'.waiting = s.waiting + 1) ∨
    s'.waiting ≤ s.waiting := by
  cases h with
  | submit h =>
      cases h with
      | enlist _ ho => exact .inl ⟨_, _, _, rfl, ho, rfl⟩
      | woken => exact .inr (Int.sub_le_self _ (by decide))
      | _ => exact .inr le_rfl
  | release h =>
      cases h with
      | reset =>
          obtain ⟨_, _, hr, _⟩ := Release.reset_frame i s
          rw [hr]
          exact .inr le_rfl
      | _ => exact .inr le_rfl
  | work h => cases h <;> exact .inr le_rfl
  | purge h => cases h <;> exact .inr le_rfl
  | ticktock h => cases h <;> exact .inr le_rfl
  | reboot h => cases h <;> exact .inr le_rfl
  | tune h => cases h <;> exact .inr le_rfl
  | clock => exact .inr le_rfl

/-- A caller that is not turned away finds a blocking pool with a place free. -/
theorem Submit.not_overloaded {o : Options} {s : PoolCore}
    (h : Submit.overloaded o s = false) :
    o.nonblocking = false ∧ (o.maxBlockingTasks ≠ 0 → s.waiting < o.maxBlockingTasks) := by
  simp only [overloaded, Bool.or_eq_false_iff, Bool.and_eq_false_iff, bne_eq_false_iff_eq,
    decide_eq_false_iff_not, not_le] at h
  exact ⟨h.1, fun hm => h.2.resolve_left hm⟩

/-- What holds of a call about its admission: only a blocking pool lets it wait, a
caller back from the wait has a place free, and an overload is only ever reported
to a caller that has not waited. -/
structure Submit.Admitted (o : Options) (s : PoolCore) (t : Submit) : Prop where
  blocking : t.waited = true ∨ t.pc = .park → o.nonblocking = false
  place : t.waited = true → t.pc.holdsLock = true → t.pc ≠ .park → o.maxBlockingTasks ≠ 0 →
    s.waiting < o.maxBlockingTasks
  refused : ∀ e, t.pc = .err e → e = .poolClosed ∨ (e = .poolOverload ∧ t.waited = false)
  unlocked : t.pc = .checkClosed ∨ t.pc = .lock → t.waited = false

/-- A caller that has waited is not turned away. -/
theorem Submit.Admitted.unrefused {o : Options} {s : PoolCore} {p : Payload} {b : Bool} {c : ℤ}
    (h : Submit.Admitted o s ⟨p, b, .readRunning c⟩) (ho : Submit.overloaded o s = true) :
    b = false := by
  cases b with
  | false => rfl
  | true =>
      have hblocking := h.blocking (.inl rfl)
      have hplace := h.place rfl rfl nofun
      simp only [Submit.overloaded, hblocking, Bool.false_or, Bool.and_eq_true, bne_iff_ne,
        decide_eq_true_eq] at ho
      exact absurd ho.2 (hplace ho.1).not_ge

theorem Submit.Step.admitted {o : Options} {s s' : PoolCore} {t t' : Submit} {new : List Thread}
    (h : Submit.Step o s t s' t' new) (ha : t.Admitted o s)
    (hle : o.maxBlockingTasks ≠ 0 → s.waiting ≤ max o.maxBlockingTasks 0)
    (hpos : t.pc = .woken → 0 < s.waiting) : t'.Admitted o s' := by
  cases h with
  | closed =>
      exact ⟨fun h => ha.blocking (h.imp id nofun), nofun, fun e he => .inl (by cases he; rfl),
        nofun⟩
  | opened =>
      exact ⟨fun h => ha.blocking (h.imp id nofun), nofun, nofun, fun _ => ha.unlocked (.inl rfl)⟩
  | detachSome => exact ⟨fun h => ha.blocking (h.imp id nofun), nofun, nofun, nofun⟩
  | detachNone =>
      refine ⟨fun h => ha.blocking (h.imp id nofun), fun hw => ?_, nofun, nofun⟩
      cases (ha.unlocked (.inr rfl)).symm.trans hw
  | unlimited | bounded | room | spawnCached | spawnNew | recheckNone =>
      exact ⟨fun h => ha.blocking (h.imp id nofun), fun hw _ _ => ha.place hw rfl nofun, nofun,
        nofun⟩
  | overload _ ho =>
      refine ⟨fun h => ha.blocking (h.imp id nofun), nofun, fun e he => .inr ?_, nofun⟩
      cases he
      exact ⟨rfl, ha.unrefused ho⟩
  | enlist _ ho =>
      exact ⟨fun _ => (Submit.not_overloaded ho).1, fun _ _ h => (h rfl).elim, nofun, nofun⟩
  | run => exact ⟨fun h => ha.blocking (h.imp id nofun), nofun, nofun, nofun⟩
  | parkLeaves | parkBlocks => exact ⟨fun _ => ha.blocking (.inr rfl), nofun, nofun, nofun⟩
  | leave => exact ⟨fun h => ha.blocking (h.imp id nofun), nofun, nofun, nofun⟩
  | recheckClosed =>
      exact ⟨fun h => ha.blocking (h.imp id nofun), nofun, fun e he => .inl (by cases he; rfl),
        nofun⟩
  | recheckSome => exact ⟨fun h => ha.blocking (h.imp id nofun), nofun, nofun, nofun⟩
  | woken =>
      refine ⟨fun h => ha.blocking (h.imp id nofun), fun _ _ _ hm => ?_, nofun, nofun⟩
      have := hle hm
      have := hpos rfl
      change _ - 1 < _
      omega
  | input => exact ⟨fun h => ha.blocking (h.imp id nofun), nofun, nofun, nofun⟩

/-- Another caller's place is not taken while it has the lock. -/
theorem Submit.Admitted.mono {o : Options} {s s' : PoolCore} {t : Submit} (h : t.Admitted o s)
    (hw : s'.waiting ≤ s.waiting ∨ t.pc.holdsLock = false) : t.Admitted o s' := by
  refine ⟨h.blocking, fun hwait hlock hpark hm => ?_, h.refused, h.unlocked⟩
  have hplace := h.place hwait hlock hpark hm
  rcases hw with hw | hw
  · omega
  · cases hw.symm.trans hlock

namespace Run
variable {o : Options} {G : Guard} {x : Config}

theorem admitted (h : Run o G x) :
    (o.maxBlockingTasks ≠ 0 → x.shared.waiting ≤ max o.maxBlockingTasks 0) ∧
      ∀ (i : ℕ) t, x.threads[i]? = some t →
        ∀ u, t = .submit u → Submit.Admitted o x.shared u := by
  refine Run.invariant_newborn
    (J := fun s => o.maxBlockingTasks ≠ 0 → s.waiting ≤ max o.maxBlockingTasks 0)
    (φ := fun s _ t => ∀ u, t = .submit u → Submit.Admitted o s u) ?_ ?_ ?_ ?_ h
  · intro y hy _
    simp [hy.waiting]
  · intro s i t hb u hu
    rcases hb with (rfl | rfl | rfl) | ⟨w, rfl⟩ <;> cases hu
  · intro y c _ _ _ u hu
    cases c with
    | submit stop =>
        cases hu
        exact ⟨fun h => (by rcases h with h | h <;> cases h), nofun, nofun, fun _ => rfl⟩
    | _ => cases hu
  · intro y i a t s' t' new hr hle hall _ ht hs
    refine ⟨fun hm => ?_, ?_, fun j u hj hu v hv => ?_⟩
    · rcases hs.waiting_cases with ⟨p, b, c, rfl, ho, hw⟩ | hw
      · have := (Submit.not_overloaded ho).2 hm
        omega
      · exact hw.trans (hle hm)
    · rintro u rfl
      cases hs with
      | @submit v _ _ _ hs =>
          refine hs.admitted (hall i _ ht v rfl) hle fun hpc => ?_
          have hwaits : (Thread.submit v).waits = true := by
            obtain ⟨p, b, pc⟩ := v
            cases hpc
            rfl
          have hcount := List.countP_pos_iff.mpr ⟨_, List.mem_of_getElem? ht, hwaits⟩
          rw [hr.waiting_eq]
          omega
    · refine (hall j u hu v hv).mono ?_
      rcases hs.waiting_cases with ⟨p, b, c, rfl, _, _⟩ | hw
      · right
        subst hv
        cases hlock : v.pc.holdsLock with
        | false => rfl
        | true => exact (hj (hr.holder_unique hu ht hlock rfl)).elim
      · exact .inl hw

/-- A caller blocked in `Cond::wait` counts as having waited. -/
theorem waited_of_parked (h : Run o G x) {i : ℕ} {p : Payload} {b : Bool} {g : ℕ}
    (ht : x.threads[i]? = some (.submit ⟨p, b, .parked g⟩)) : b = true := by
  refine (Run.invariant_newborn (J := fun _ => True)
    (φ := fun _ _ t => ∀ p b g, t = .submit ⟨p, b, .parked g⟩ → b = true)
    (fun _ _ => trivial) ?_ ?_ ?_ h).2 i _ ht p b g rfl
  · intro s i t hb p b g hu
    rcases hb with (rfl | rfl | rfl) | ⟨w, rfl⟩ <;> cases hu
  · intro y c _ _ _ p b g hu
    cases c <;> cases hu
  · intro y i a t s' t' new _ _ hall _ _ hs
    refine ⟨trivial, ?_, fun j u _ hu => hall j u hu⟩
    rintro p b g rfl
    cases hs with
    | submit hs =>
        cases hs with
        | parkBlocks => rfl

/-- A caller that has waited ends with a worker or with `PoolClosed`. -/
theorem waited_error (h : Run o G x) {t : Submit} (ht : Thread.submit t ∈ x.threads)
    (hw : t.waited = true) {e : Error} (he : t.pc = .err e) : e = .poolClosed := by
  obtain ⟨i, hi⟩ := List.mem_iff_getElem?.mp ht
  rcases (h.admitted.2 i _ hi t rfl).refused e he with h | ⟨_, h⟩
  · exact h
  · cases h.symm.trans hw

end Run

/-- From the increment of `waiting` on. -/
def Submit.admittedToWait (t : Submit) : Prop := t.waited = true ∨ t.pc = .park

theorem Submit.Step.admittedToWait {o : Options} {s s' : PoolCore} {t t' : Submit}
    {new : List Thread} (h : Submit.Step o s t s' t' new) (ht : t.admittedToWait) :
    t'.admittedToWait := by
  cases h with
  | parkLeaves | parkBlocks => exact .inl rfl
  | _ => exact .inl (ht.resolve_right nofun)

/-- A caller that was admitted to the wait stays one until it returns. -/
theorem Run.stays_admitted {o : Options} {G : Guard} {x y : Config} (h : Run o G x)
    (hy : (program o).Reach (fun z => z = x) G y) {i : ℕ} {t : Submit}
    (ht : x.threads[i]? = some (.submit t)) (ha : t.admittedToWait) :
    ∃ u : Submit, y.threads[i]? = some (.submit u) ∧ u.admittedToWait := by
  refine Program.Reach.invariant
    (J := fun y => ∃ u : Submit, y.threads[i]? = some (.submit u) ∧ u.admittedToWait) ?_ ?_ ?_ hy
  · rintro z rfl
    exact ⟨t, ht, ha⟩
  · rintro z c _ ⟨u, hu, hau⟩ _
    refine ⟨u, ?_, hau⟩
    rw [Program.entered, List.getElem?_append_left (List.getElem?_eq_some_iff.mp hu).1, hu]
  · rintro z j a v r _ ⟨u, hu, hau⟩ _ hv hn
    by_cases hij : i = j
    · subst hij
      obtain rfl := Option.some.inj (hu.symm.trans hv)
      have hs := program_step hn
      cases hr : r.2.1 with
      | submit u' =>
          rw [hr] at hs
          cases hs with
          | submit hs =>
              exact ⟨u', hr ▸ Config.getElem?_after_self hv, hs.admittedToWait hau⟩
      | _ =>
          rw [hr] at hs
          cases hs
    · exact ⟨u, Config.getElem?_after_ne hij hu, hau⟩

/-- With a bound on the blocked callers, `waiting` counts the callers between its two
updates and stays within the bound, and a caller once admitted to the wait never ends
with an overload, whatever comes in between. -/
theorem admission_of_blocked_callers {o : Options} {x : Config} (h : Run o anyMove x)
    (hm : 0 < o.maxBlockingTasks) :
    x.shared.waiting = x.threads.countP Thread.waits ∧
    0 ≤ x.shared.waiting ∧ x.shared.waiting ≤ o.maxBlockingTasks ∧
    ∀ (i : ℕ) (t : Submit), x.threads[i]? = some (.submit t) → t.admittedToWait →
      ∀ y, (program o).Reach (fun z => z = x) anyMove y →
        ∃ u : Submit, y.threads[i]? = some (.submit u) ∧ ∀ e, u.pc = .err e → e = .poolClosed := by
  have hcount := h.waiting_eq
  have hle := h.admitted.1 hm.ne'
  refine ⟨hcount, by omega, by omega, fun i t ht ha y hy => ?_⟩
  obtain ⟨u, hu, hau⟩ := h.stays_admitted hy ht ha
  refine ⟨u, hu, fun e he => ?_⟩
  have hw : u.waited = true := hau.resolve_right fun hpark => by cases hpark.symm.trans he
  have hrun : Run o anyMove y := h.trans hy
  exact hrun.waited_error (List.mem_of_getElem? hu) hw he

/-- A small pool that lets one caller wait. -/
def waitingOptions : Options := { disablePurge := true, maxBlockingTasks := 1 }

def waitingPool : Config := (((PoolCore.new 1 waitingOptions 0).get rfl).toOption.get rfl).2

/-- One caller keeps the worker busy, one waits and one is turned away. -/
theorem admission_of_blocked_callers_small :
    ∃ x, Run waitingOptions anyMove x ∧ x.shared.waiting = 1 ∧
      Thread.submit ⟨⟨5, false⟩, false, .err .poolOverload⟩ ∈ x.threads ∧
      x.shared.waiting ≤ waitingOptions.maxBlockingTasks := by
  obtain ⟨x, hx, hφ⟩ := Program.Reach.exists_of_run
    (P := program waitingOptions) (I := Starts waitingOptions) (G := anyMove) (x := waitingPool)
    (m := .call (.submit false) :: steps 2 7 ++ steps 3 1 ++ .call (.submit false) :: steps 4 5 ++
      .call (.submit false) :: steps 5 4)
    (φ := fun x => decide (x.shared.waiting = 1 ∧
      Thread.submit ⟨⟨5, false⟩, false, .err .poolOverload⟩ ∈ x.threads))
    ⟨1, waitingOptions, 0, rfl⟩ (by decide)
  obtain ⟨hw, ht⟩ := of_decide_eq_true hφ
  exact ⟨x, hx, hw, ht, (admission_of_blocked_callers hx (by decide)).2.2.1⟩

end AntsPool
