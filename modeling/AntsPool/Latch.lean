import AntsPool.Lifecycle

/-!
# The latch of a closed pool

The releaser writes the state and then reads `running`; a worker that exits
writes `running` and then reads the state. In a closed pool one of the two is
always still to close the current latch, unless it is closed already or workers
are running. The one step that can break this is a reboot replacing the latch.
-/
namespace AntsPool
open Interleaving

namespace Thread

/-- A thread that has yet to fetch the latch: a releasing one, or a worker that
found itself to be the last. -/
def fetchesLatch : Thread → Bool
  | .release ⟨_, _, _, .latchClose _⟩ => false
  | .release t => t.pc.releasing
  | .work ⟨_, _, .exitClosed⟩ | .work ⟨_, _, .latchFetch⟩ => true
  | _ => false

/-- A thread that is going to close `latch` when that is the current one. -/
def closesLatch (latch : ℕ) : Thread → Bool
  | .release ⟨_, _, _, .latchClose e⟩ => e == latch
  | .work ⟨_, _, .latchClose e⟩ => e == latch
  | t => t.fetchesLatch

/-- A worker that has decided to close the latch and has not fetched it. -/
def atLatchFetch : Thread → Bool
  | .work ⟨_, _, .latchFetch⟩ => true
  | _ => false

/-- A worker that holds `latch`, about to close it. -/
def atLatchClose (latch : ℕ) : Thread → Bool
  | .work ⟨_, _, .latchClose e⟩ => e == latch
  | _ => false

/-- A worker between its decrement of `running` and its latch step. -/
def atLatchStep : Thread → Bool
  | .work ⟨_, _, .exitClosed⟩ | .work ⟨_, _, .latchFetch⟩ | .work ⟨_, _, .latchClose _⟩ => true
  | _ => false

theorem closesLatch_of_fetchesLatch {t : Thread} (h : t.fetchesLatch = true) (latch : ℕ) :
    t.closesLatch latch = true := by
  cases t with
  | work t =>
      obtain ⟨w, b, pc⟩ := t
      cases pc <;> first | exact h | cases h
  | release t =>
      obtain ⟨m, p, k, pc⟩ := t
      cases pc <;> first | exact h | cases h
  | _ => exact h

theorem closesLatch_cases {t : Thread} {latch : ℕ} (h : t.closesLatch latch = true) :
    t.releasing = true ∨ t.atLatchStep = true := by
  cases t with
  | work t =>
      obtain ⟨w, b, pc⟩ := t
      cases pc <;> first | exact .inr rfl | cases h
  | release t =>
      obtain ⟨m, p, k, pc⟩ := t
      cases pc <;> first | exact .inl rfl | cases h
  | _ => cases h

/-- What a step does to the latches: nothing is opened again, and only the last
step of a reboot changes which one is current. -/
theorem Step.latch {o : Options} {i : ℕ} {s s' : PoolCore} {t t' : Thread} {new : List Thread}
    (h : Thread.Step o i s t s' t' new) (hlt : s.allDone < s.eventCount) :
    (t = .reboot .replaceLatch ∧ t' = .reboot .returned ∧ s'.allDone = s.eventCount ∧
      s'.eventCount = s.eventCount + 1 ∧ s'.events s.eventCount = false ∧
      s'.running = s.running) ∨
    (t ≠ .reboot .replaceLatch ∧ s'.allDone = s.allDone ∧ s.eventCount ≤ s'.eventCount ∧
      (s.events s.allDone = true → s'.events s.allDone = true)) := by
  have hclose : ∀ e, s.events s.allDone = true → (s.closeEvent e).events s.allDone = true := by
    intro e he
    simp only [PoolCore.closeEvent, Function.update_apply, he]
    split <;> rfl
  have hnew : s.events s.allDone = true → s.newEvent.2.events s.allDone = true := by
    intro he
    simp only [PoolCore.newEvent, Function.update_apply, if_neg hlt.ne, he]
  cases h with
  | release h =>
      cases h with
      | cancelPurge | cancelTicktock | latchClose => exact .inr ⟨by simp, rfl, le_rfl, hclose _⟩
      | reset =>
          obtain ⟨_, _, hr, _⟩ := Release.reset_frame i s
          rw [hr]
          exact .inr ⟨by simp, rfl, le_rfl, id⟩
      | _ => exact .inr ⟨by simp, rfl, le_rfl, id⟩
  | reboot h =>
      cases h with
      | replaceLatch => exact .inl ⟨rfl, rfl, rfl, rfl, Function.update_self .., rfl⟩
      | purgeCtx | ticktockCtx => exact .inr ⟨by simp, rfl, Nat.le_succ _, hnew⟩
      | _ => exact .inr ⟨by simp, rfl, le_rfl, id⟩
  | work h =>
      cases h with
      | latchClose => exact .inr ⟨by simp, rfl, le_rfl, hclose _⟩
      | _ => exact .inr ⟨by simp, rfl, le_rfl, id⟩
  | submit h => cases h <;> exact .inr ⟨by simp, rfl, le_rfl, id⟩
  | purge h => cases h <;> exact .inr ⟨by simp, rfl, le_rfl, id⟩
  | ticktock h => cases h <;> exact .inr ⟨by simp, rfl, le_rfl, id⟩
  | tune h => cases h <;> exact .inr ⟨by simp, rfl, le_rfl, id⟩
  | clock => exact .inr ⟨by simp, rfl, le_rfl, id⟩

/-- A thread that was going to close the latch of a closed pool still is, has
closed it, or has found running workers. -/
theorem Step.closes {o : Options} {i : ℕ} {s s' : PoolCore} {t t' : Thread} {new : List Thread}
    (h : Thread.Step o i s t s' t' new) (hc : s.state = .closed) (hr : 0 ≤ s.running)
    (ht : t.closesLatch s.allDone = true) :
    t'.closesLatch s.allDone = true ∨ s'.events s.allDone = true ∨ 0 < s'.running := by
  have hclose : ∀ e, (e == s.allDone) = true → (s.closeEvent e).events s.allDone = true := by
    intro e he
    rw [beq_iff_eq.mp he]
    exact Function.update_self ..
  cases h with
  | release h =>
      cases h with
      | exchange ho => cases ho.symm.trans hc
      | busy hn => exact .inr (.inr (lt_of_le_of_ne hr (Ne.symm hn)))
      | latchFetch => exact .inl (beq_self_eq_true _)
      | latchClose => exact .inr (.inl (hclose _ ht))
      | exchangeFails => cases ht
      | _ => first | exact .inl rfl | cases ht
  | work h =>
      cases h with
      | lastOpened ho => cases ho.symm.trans hc
      | latchFetch => exact .inl (beq_self_eq_true _)
      | latchClose => exact .inr (.inl (hclose _ ht))
      | _ => first | exact .inl rfl | cases ht
  | submit h => cases ht
  | purge h => cases ht
  | ticktock h => cases ht
  | reboot h => cases ht
  | tune h => cases ht
  | clock => cases ht

/-- A worker that takes `running` to zero is going to look at the state. -/
theorem Step.still_running {o : Options} {i : ℕ} {s s' : PoolCore} {t t' : Thread}
    {new : List Thread} (h : Thread.Step o i s t s' t' new) (hr : 0 < s.running) (latch : ℕ) :
    0 < s'.running ∨ t'.closesLatch latch = true := by
  cases h with
  | work h =>
      cases h with
      | exitLast => exact .inr rfl
      | exitMore hn =>
          left
          change 0 < s.running - 1
          omega
      | _ => exact .inl hr
  | submit h =>
      cases h with
      | run =>
          left
          change 0 < s.running + 1
          omega
      | _ => exact .inl hr
  | release h =>
      cases h with
      | reset =>
          obtain ⟨_, _, hr', _⟩ := Release.reset_frame i s
          rw [hr']
          exact .inl hr
      | _ => exact .inl hr
  | purge h => cases h <;> exact .inl hr
  | ticktock h => cases h <;> exact .inl hr
  | reboot h => cases h <;> exact .inl hr
  | tune h => cases h <;> exact .inl hr
  | clock => exact .inl hr

/-- The releaser that closes a pool is going to close its latch. -/
theorem Step.closes_of_close {o : Options} {i : ℕ} {s s' : PoolCore} {t t' : Thread}
    {new : List Thread} (h : Thread.Step o i s t s' t' new) (ho : s.state = .opened)
    (hc : s'.state = .closed) (latch : ℕ) : t'.closesLatch latch = true := by
  cases h with
  | release h =>
      cases h with
      | exchange => rfl
      | reset =>
          rw [Release.reset_state, ho] at hc
          cases hc
      | _ => cases ho.symm.trans hc
  | submit h => cases h <;> cases ho.symm.trans hc
  | work h => cases h <;> cases ho.symm.trans hc
  | purge h => cases h <;> cases ho.symm.trans hc
  | ticktock h => cases h <;> cases ho.symm.trans hc
  | reboot h =>
      cases h with
      | exchange => cases hc
      | _ => cases ho.symm.trans hc
  | tune h => cases h <;> cases ho.symm.trans hc
  | clock => cases ho.symm.trans hc

end Thread

/-- Somebody is still to close the current latch, or nobody has to. -/
def latchCovered (x : Config) : Prop :=
  x.shared.events x.shared.allDone = true ∨ 0 < x.shared.running ∨
    ∃ t ∈ x.threads, t.closesLatch x.shared.allDone = true

/-- A reboot replaces the latch of a closed pool only while workers are running or
somebody has yet to fetch the latch. -/
def replacedInTime (x : Config) : Move → Prop
  | .step i _ => x.threads[i]? = some (.reboot .replaceLatch) → x.shared.state = .closed →
      0 < x.shared.running ∨ ∃ t ∈ x.threads, t.fetchesLatch = true
  | .call _ => True

instance (x : Config) : (m : Move) → Decidable (replacedInTime x m)
  | .step i _ => inferInstanceAs (Decidable (x.threads[i]? = some (.reboot .replaceLatch) →
      x.shared.state = .closed → 0 < x.shared.running ∨ ∃ t ∈ x.threads, t.fetchesLatch = true))
  | .call _ => inferInstanceAs (Decidable True)

namespace Run
variable {o : Options} {G : Guard} {x : Config}

theorem latch_lt (h : Run o G x) : x.shared.allDone < x.shared.eventCount := by
  refine Run.invariant (J := fun x => x.shared.allDone < x.shared.eventCount) ?_ ?_ ?_ h
  · intro y hy
    exact hy.latch
  · intro y c _ hy _
    exact hy
  · intro y i a t s' t' new _ hy _ _ hs
    rcases hs.latch hy with ⟨_, _, ha, hcount, _⟩ | ⟨_, ha, hcount, _⟩
    · simp only [Config.after, ha]
      omega
    · simp only [Config.after, ha]
      omega

theorem covered_step (h : Run o G x) {i : ℕ} {t t' : Thread} {s' : PoolCore} {new : List Thread}
    (ht : x.threads[i]? = some t) (hs : Thread.Step o i x.shared t s' t' new)
    (hc : x.shared.state = .closed) (hcov : latchCovered x)
    (hrep : t = .reboot .replaceLatch →
      0 < x.shared.running ∨ ∃ t ∈ x.threads, t.fetchesLatch = true) :
    latchCovered (x.after i (s', t', new)) := by
  have hself : t' ∈ (x.after i (s', t', new)).threads :=
    List.mem_of_getElem? (Config.getElem?_after_self ht)
  rcases hs.latch h.latch_lt with ⟨rfl, _, _, _, _, hrun'⟩ | ⟨_, ha, _, hev⟩
  · rcases hrep rfl with hrun | ⟨u, hu, hf⟩
    · exact .inr (.inl (hrun.trans_eq hrun'.symm))
    · obtain ⟨j, hj⟩ := List.mem_iff_getElem?.mp hu
      have hji : j ≠ i := by
        rintro rfl
        cases Option.some.inj (ht.symm.trans hj)
        cases hf
      exact .inr (.inr ⟨u, List.mem_of_getElem? (Config.getElem?_after_ne hji hj),
        Thread.closesLatch_of_fetchesLatch hf _⟩)
  · have hclosed : s'.events x.shared.allDone = true →
        latchCovered (x.after i (s', t', new)) := fun he => .inl (by
      simp only [Config.after, ha]
      exact he)
    have hpending : ∀ u ∈ (x.after i (s', t', new)).threads,
        u.closesLatch x.shared.allDone = true → latchCovered (x.after i (s', t', new)) := by
      intro u hu hcl
      refine .inr (.inr ⟨u, hu, ?_⟩)
      simp only [Config.after, ha]
      exact hcl
    rcases hcov with he | hrun | ⟨u, hu, hcl⟩
    · exact hclosed (hev he)
    · rcases hs.still_running hrun x.shared.allDone with hrun | hcl
      · exact .inr (.inl hrun)
      · exact hpending t' hself hcl
    · obtain ⟨j, hj⟩ := List.mem_iff_getElem?.mp hu
      by_cases hji : j = i
      · subst hji
        cases Option.some.inj (ht.symm.trans hj)
        rcases hs.closes hc h.running_nonneg hcl with hcl | he | hrun
        · exact hpending t' hself hcl
        · exact hclosed he
        · exact .inr (.inl hrun)
      · exact hpending u (List.mem_of_getElem? (Config.getElem?_after_ne hji hj)) hcl

/-- In every run in which latches are replaced in time, the latch of a closed pool
is covered. -/
theorem covered (hG : ∀ x m, Run o G x → G x m → replacedInTime x m) (h : Run o G x) :
    x.shared.state = .closed → latchCovered x := by
  refine Run.invariant (J := fun x => x.shared.state = .closed → latchCovered x) ?_ ?_ ?_ h
  · intro y hy hc
    cases hy.state.symm.trans hc
  · intro y c _ hy _ hc
    exact (hy hc).imp id (Or.imp id fun ⟨t, ht, hcl⟩ => ⟨t, List.mem_append_left _ ht, hcl⟩)
  · intro y i a t s' t' new hr hy hg ht hs hc
    cases hstate : y.shared.state with
    | opened =>
        exact .inr (.inr ⟨t', List.mem_of_getElem? (Config.getElem?_after_self ht),
          hs.closes_of_close hstate hc _⟩)
    | closed =>
        exact hr.covered_step ht hs hstate (hy hstate) fun hrep =>
          hG y _ hr hg (hrep ▸ ht) hstate

end Run

/-- A covered latch is closed when no worker is running, none is on its way to the
latch and nobody is releasing. -/
theorem latchCovered.closed {x : Config} (h : latchCovered x) (h0 : x.shared.running = 0)
    (hw : ∀ u ∈ x.threads, u.atLatchStep = false) (hr : ∀ u ∈ x.threads, u.releasing = false) :
    x.shared.events x.shared.allDone = true := by
  rcases h with he | hrun | ⟨u, hu, hcl⟩
  · exact he
  · omega
  · rcases Thread.closesLatch_cases hcl with hrel | hat
    · cases (hr u hu).symm.trans hrel
    · cases (hw u hu).symm.trans hat

/-- The last-exit handshake: when these calls do not overlap, the pool is closed, the
release that closed it is over, no worker is running and none is between its
decrement and its latch step, the current latch is closed. -/
theorem latch_closed_after_last_exit {o : Options} {x : Config} (h : Run o nonOverlapping x)
    (hc : x.shared.state = .closed) {i : ℕ} {t : Release} (hi : x.shared.past.closer = some i)
    (ht : x.threads[i]? = some (.release t)) (hover : t.pc.releasing = false)
    (h0 : x.shared.running = 0) (hw : ∀ u ∈ x.threads, u.atLatchStep = false) :
    x.shared.events x.shared.allDone = true := by
  have hG : ∀ x m, nonOverlapping x m → nonOverlapping x m := fun _ _ => id
  have hrep : ∀ y m, Run o nonOverlapping y → nonOverlapping y m → replacedInTime y m := by
    intro y m hy _
    cases m with
    | call c => trivial
    | step j a =>
        intro hj hclosed
        cases ((hy.lifecycle_state hG j _ hj).2 rfl).symm.trans hclosed
  refine (h.covered hrep hc).closed h0 hw fun u hu => ?_
  obtain ⟨j, hj⟩ := List.mem_iff_getElem?.mp hu
  cases hrel : u.releasing with
  | false => rfl
  | true =>
      have hcl := ((h.lifecycle_state hG j u hj).1 hrel).2
      cases hi.symm.trans hcl
      cases Option.some.inj (ht.symm.trans hj)
      cases hover.symm.trans hrel

/-- The whole of a `release()` of a small pool, and the end of its clock thread. -/
def releasedMoves : List Move := .call .release :: steps 2 9 ++ steps 1 3

/-- A worker runs a payload while a `release()` closes the small pool and returns and
the clock thread ends. Then the worker exits. -/
def lastExitMoves : List Move :=
  .call (.submit false) :: steps 2 7 ++ steps 3 1 ++ .call .release :: steps 4 7 ++ steps 1 3 ++
    steps 3 11

/-- The worker closes the latch on its way out. -/
theorem latch_closed_after_last_exit_small :
    ∃ x, Run smallOptions nonOverlapping x ∧ x.shared.state = .closed ∧
      x.shared.past.received = [(2, 0)] ∧ Thread.work ⟨0, false, .returned⟩ ∈ x.threads ∧
      x.shared.events 0 = true := by
  obtain ⟨x, hx, hφ⟩ := Program.Reach.exists_of_run
    (P := program smallOptions) (I := Starts smallOptions) (G := nonOverlapping) (x := smallPool)
    (m := lastExitMoves)
    (φ := fun x => decide (x.shared.state = .closed ∧ x.shared.past.closer = some 4 ∧
      x.threads[4]? = some (Thread.release ⟨.plain, none, none, .returned none⟩) ∧
      x.shared.running = 0 ∧ (∀ u ∈ x.threads, u.atLatchStep = false) ∧ x.shared.allDone = 0 ∧
      x.shared.past.received = [(2, 0)] ∧ Thread.work ⟨0, false, .returned⟩ ∈ x.threads))
    smallPool_starts (by decide)
  obtain ⟨hc, hi, ht, h0, hw, he, hreceived, hreturned⟩ := of_decide_eq_true hφ
  exact ⟨x, hx, hc, hreceived, hreturned, he ▸ latch_closed_after_last_exit hx hc hi ht rfl h0 hw⟩

/-- In every run whose reboots replace the latch in time, a closed pool whose calls
have returned and whose workers are through has a closed latch. -/
theorem overlapping_reboot_leaves_latch_closed {o : Options} {x : Config}
    (h : Run o replacedInTime x) (hc : x.shared.state = .closed)
    (hret : ∀ u ∈ x.threads, u.lifecycle = false) (h0 : x.shared.running = 0)
    (hw : ∀ u ∈ x.threads, u.atLatchStep = false) :
    x.shared.events x.shared.allDone = true := by
  refine (h.covered (fun _ _ _ => id) hc).closed h0 hw fun u hu => ?_
  cases hrel : u.releasing with
  | false => rfl
  | true => cases (hret u hu).symm.trans (Thread.lifecycle_of_releasing hrel)

/-- A `release()` falls between the exchange of a reboot and its new latch: the
pool is closed and empty, every call has returned, and the latch is open. -/
theorem reboot_wedged_by_release :
    ∃ x, Run smallOptions anyMove x ∧ x.shared.state = .closed ∧ x.shared.running = 0 ∧
      (∀ u ∈ x.threads, u.lifecycle = false ∧ u.counted = false ∧ u.atLatchStep = false) ∧
      x.shared.events x.shared.allDone = false := by
  obtain ⟨x, hx, hφ⟩ := Program.Reach.exists_of_run
    (P := program smallOptions) (I := Starts smallOptions) (G := anyMove) (x := smallPool)
    (m := releasedMoves ++ .call .reboot :: steps 3 6 ++ .call .release :: steps 4 8 ++ steps 3 7)
    (φ := fun x => decide (x.shared.state = .closed ∧ x.shared.running = 0 ∧
      (∀ u ∈ x.threads, u.lifecycle = false ∧ u.counted = false ∧ u.atLatchStep = false) ∧
      x.shared.events x.shared.allDone = false)) smallPool_starts (by decide)
  exact ⟨x, hx, of_decide_eq_true hφ⟩

/-- A release that falls into a reboot but has not fetched the latch when it is
replaced closes the new one. -/
theorem overlapping_reboot_leaves_latch_closed_small :
    ∃ x, Run smallOptions replacedInTime x ∧ x.shared.allDone = 3 ∧ x.shared.events 3 = true := by
  obtain ⟨x, hx, hφ⟩ := Program.Reach.exists_of_run
    (P := program smallOptions) (I := Starts smallOptions) (G := replacedInTime) (x := smallPool)
    (m := releasedMoves ++ .call .reboot :: steps 3 6 ++ .call .release :: steps 4 1 ++
      steps 3 7 ++ steps 4 8)
    (φ := fun x => decide (x.shared.state = .closed ∧ x.shared.running = 0 ∧
      (∀ u ∈ x.threads, u.lifecycle = false) ∧ (∀ u ∈ x.threads, u.atLatchStep = false) ∧
      x.shared.allDone = 3)) smallPool_starts (by decide)
  obtain ⟨hc, h0, hret, hw, he⟩ := of_decide_eq_true hφ
  have hlatch := overlapping_reboot_leaves_latch_closed hx hc hret h0 hw
  exact ⟨x, hx, he, he ▸ hlatch⟩

/-- No worker is about to fetch the latch when a reboot replaces it. -/
def settledAtReplacement (x : Config) : Move → Prop
  | .step i _ => x.threads[i]? = some (.reboot .replaceLatch) →
      ∀ t ∈ x.threads, t.atLatchFetch = false
  | .call _ => True

instance (x : Config) : (m : Move) → Decidable (settledAtReplacement x m)
  | .step i _ => inferInstanceAs (Decidable (x.threads[i]? = some (.reboot .replaceLatch) →
      ∀ t ∈ x.threads, t.atLatchFetch = false))
  | .call _ => inferInstanceAs (Decidable True)

/-- A reboot keeps reopening until it replaces the latch. -/
theorem Thread.Step.reopening {o : Options} {i : ℕ} {s s' : PoolCore} {t t' : Thread}
    {new : List Thread} (h : Thread.Step o i s t s' t' new) (ht : t.reopening = true)
    (hne : t ≠ .reboot .replaceLatch) : t'.reopening = true := by
  cases h with
  | reboot h =>
      cases h with
      | replaceLatch => exact (hne rfl).elim
      | _ => first | rfl | cases ht
  | _ => cases ht

/-- In an open pool a worker's step opens no latch and brings no worker closer to
the current one. -/
theorem Thread.Step.latch_open {o : Options} {i : ℕ} {s s' : PoolCore} {t t' : Thread}
    {new : List Thread} (h : Thread.Step o i s t s' t' new) (ho : s.state = .opened)
    (he : s.events s.allDone = false)
    (ht : t.atLatchFetch = false ∧ t.atLatchClose s.allDone = false)
    (hrel : t.releasing = false) (hre : t.reopening = false) :
    s'.allDone = s.allDone ∧ s'.events s.allDone = false ∧
      t'.atLatchFetch = false ∧ t'.atLatchClose s.allDone = false := by
  cases h with
  | work h =>
      cases h with
      | latchClose =>
          have hne := beq_eq_false_iff_ne.mp ht.2
          refine ⟨rfl, ?_, rfl, rfl⟩
          exact (Function.update_of_ne hne.symm ..).trans he
      | latchFetch => cases ht.1
      | lastClosed hc => cases ho.symm.trans hc
      | _ => exact ⟨rfl, he, rfl, rfl⟩
  | release h =>
      cases h with
      | cancelPurge | cancelTicktock | latchClose => cases hrel
      | reset => cases hrel
      | _ => exact ⟨rfl, he, rfl, rfl⟩
  | reboot h =>
      cases h with
      | purgeCtx | ticktockCtx | replaceLatch => cases hre
      | _ => exact ⟨rfl, he, rfl, rfl⟩
  | submit h => cases h <;> exact ⟨rfl, he, rfl, rfl⟩
  | purge h => cases h <;> exact ⟨rfl, he, rfl, rfl⟩
  | ticktock h => cases h <;> exact ⟨rfl, he, rfl, rfl⟩
  | tune h => cases h <;> exact ⟨rfl, he, rfl, rfl⟩
  | clock => exact ⟨rfl, he, rfl, rfl⟩

/-- The latch of an open pool that is not being reopened: open, and no worker is
about to close it. -/
def latchUntouched (x : Config) : Prop :=
  x.shared.events x.shared.allDone = false ∧
    ∀ u ∈ x.threads, u.atLatchFetch = false ∧ u.atLatchClose x.shared.allDone = false

namespace Run
variable {o : Options} {G : Guard} {x : Config}

/-- A worker holds a latch that exists. -/
theorem latchClose_lt (h : Run o G x) (i : ℕ) (t : Thread) (ht : x.threads[i]? = some t) :
    ∀ e, t.atLatchClose e = true → e < x.shared.eventCount := by
  refine (Run.invariant_newborn (J := fun s => s.allDone < s.eventCount)
    (φ := fun s _ t => ∀ e, t.atLatchClose e = true → e < s.eventCount)
    (fun _ hy => hy.latch) ?_ ?_ ?_ h).2 i t ht
  · intro s i t hb e he
    rcases hb with (rfl | rfl | rfl) | ⟨w, rfl⟩ <;> cases he
  · intro y c _ _ _ e he
    cases c <;> cases he
  · intro y j a u s' u' new hr hlt hall _ hj hs
    have hlt' : s'.allDone < s'.eventCount ∧ y.shared.eventCount ≤ s'.eventCount := by
      rcases hs.latch hlt with ⟨_, _, ha, hcount, _⟩ | ⟨_, ha, hcount, _⟩
      · omega
      · exact ⟨ha ▸ hlt.trans_le hcount, hcount⟩
    refine ⟨hlt'.1, fun e he => ?_, fun k v _ hk e he => ?_⟩
    · cases hs with
      | work hs =>
          cases hs with
          | latchFetch => exact beq_iff_eq.mp he ▸ hlt
          | _ => cases he
      | _ => cases he
    · exact (hall k v hk e he).trans_le hlt'.2

theorem untouched (hover : ∀ x m, G x m → nonOverlapping x m)
    (hset : ∀ x m, G x m → settledAtReplacement x m) (h : Run o G x) :
    x.shared.state = .opened → (∃ u ∈ x.threads, u.reopening = true) ∨ latchUntouched x := by
  refine Run.invariant (J := fun x => x.shared.state = .opened →
    (∃ u ∈ x.threads, u.reopening = true) ∨ latchUntouched x) ?_ ?_ ?_ h
  · intro y hy _
    refine .inr ⟨hy.events _, fun u hu => ?_⟩
    rcases hy.threads u hu with rfl | rfl | rfl <;> exact ⟨rfl, rfl⟩
  · intro y c _ hy _ ho
    refine (hy ho).imp (fun ⟨u, hu, hre⟩ => ⟨u, List.mem_append_left _ hu, hre⟩) fun hun => ?_
    refine ⟨hun.1, fun u hu => ?_⟩
    rcases List.mem_append.mp hu with hu | hu
    · exact hun.2 u hu
    · obtain rfl := List.mem_singleton.mp hu
      cases c <;> exact ⟨rfl, rfl⟩
  · intro y i a t s' t' new hr hy hg ht hs ho
    have hself : t' ∈ (y.after i (s', t', new)).threads :=
      List.mem_of_getElem? (Config.getElem?_after_self ht)
    cases hstate : y.shared.state with
    | closed =>
        cases hs.stateStep with
        | reopen _ _ _ ht' => exact .inl ⟨t', hself, ht'⟩
        | close hop => cases hop.symm.trans hstate
        | same hsame => cases (hsame.trans hstate).symm.trans ho
    | opened =>
        rcases hs.latch hr.latch_lt with ⟨rfl, rfl, ha, _, he, _⟩ | ⟨hne, ha, _, _⟩
        · -- the new latch: nobody holds it, and nobody is about to fetch it
          refine .inr ⟨by simpa only [Config.after, ha] using he, fun u hu => ?_⟩
          simp only [Config.after, ha]
          rcases Config.mem_after hu with hu | rfl | hu
          · obtain ⟨j, hj⟩ := List.mem_iff_getElem?.mp hu
            refine ⟨hset _ _ hg ht u hu, ?_⟩
            by_contra hclose
            exact lt_irrefl _ (hr.latchClose_lt j u hj _ (by simpa using hclose))
          · exact ⟨rfl, rfl⟩
          · rcases hs.new_cases hu with ⟨w, rfl⟩ | rfl | rfl <;> exact ⟨rfl, rfl⟩
        · have hkeep : t.reopening = true → t'.reopening = true := fun hre =>
            hs.reopening hre hne
          rcases hy hstate with ⟨u, hu, hre⟩ | hun
          · obtain ⟨j, hj⟩ := List.mem_iff_getElem?.mp hu
            left
            by_cases hji : j = i
            · subst hji
              cases Option.some.inj (ht.symm.trans hj)
              exact ⟨t', hself, hkeep hre⟩
            · exact ⟨u, List.mem_of_getElem? (Config.getElem?_after_ne hji hj), hre⟩
          · cases hre : t.reopening with
            | true => exact .inl ⟨t', hself, hkeep hre⟩
            | false =>
                have hrel : t.releasing = false := by
                  cases hrel : t.releasing with
                  | false => rfl
                  | true => cases ((hr.lifecycle_state hover i t ht).1 hrel).1.symm.trans hstate
                obtain ⟨_, he, hfetch, hclose⟩ :=
                  hs.latch_open hstate hun.1 (hun.2 t (List.mem_of_getElem? ht)) hrel hre
                refine .inr ⟨by simpa only [Config.after, ha] using he, fun u hu => ?_⟩
                simp only [Config.after, ha]
                rcases Config.mem_after hu with hu | rfl | hu
                · exact hun.2 u hu
                · exact ⟨hfetch, hclose⟩
                · rcases hs.new_cases hu with ⟨w, rfl⟩ | rfl | rfl <;> exact ⟨rfl, rfl⟩

end Run

/-- In every run of calls that do not overlap and whose reboots find no worker about
to fetch the latch they replace, an open pool that is not being reopened has an open
latch. -/
theorem latch_open_while_opened {o : Options} {x : Config}
    (h : Run o (fun x m => nonOverlapping x m ∧ settledAtReplacement x m) x)
    (ho : x.shared.state = .opened) (hre : ∀ u ∈ x.threads, u.reopening = false) :
    x.shared.events x.shared.allDone = false := by
  rcases h.untouched (fun _ _ hg => hg.1) (fun _ _ hg => hg.2) ho with ⟨u, hu, hur⟩ | hun
  · cases (hre u hu).symm.trans hur
  · exact hun.1

/-- A worker has exited and closed the latch of the released pool, and a reboot has
replaced it. A second worker takes the nil payload and exits; it leaves the new latch open. -/
theorem latch_open_while_opened_small :
    ∃ x, Run smallOptions (fun x m => nonOverlapping x m ∧ settledAtReplacement x m) x ∧
      x.shared.past.received = [(7, 0), (2, 0)] ∧ x.shared.running = 0 ∧
      x.shared.events 0 = true ∧ x.shared.allDone = 3 ∧ x.shared.events 3 = false := by
  obtain ⟨x, hx, hφ⟩ := Program.Reach.exists_of_run
    (P := program smallOptions) (I := Starts smallOptions)
    (G := fun x m => nonOverlapping x m ∧ settledAtReplacement x m) (x := smallPool)
    (m := lastExitMoves ++ .call .reboot :: steps 5 13 ++ .call (.submit true) :: steps 7 7 ++
      steps 8 6)
    (φ := fun x => decide (x.shared.state = .opened ∧
      (∀ u ∈ x.threads, u.reopening = false) ∧ x.shared.allDone = 3 ∧ x.shared.running = 0 ∧
      x.shared.past.received = [(7, 0), (2, 0)] ∧ x.shared.events 0 = true))
    smallPool_starts (by decide)
  obtain ⟨ho, hre, he, h0, hreceived, hold⟩ := of_decide_eq_true hφ
  exact ⟨x, hx, hreceived, h0, hold, he, he ▸ latch_open_while_opened hx ho hre⟩

/-- Calls of `release` and `reboot`, one at a time, with any submits. -/
def alternating (x : Config) : Move → Prop
  | .call (.tune _) | .call (.releaseContext _) => False
  | m => nonOverlapping x m

instance (x : Config) : (m : Move) → Decidable (alternating x m)
  | .call (.tune _) | .call (.releaseContext _) => inferInstanceAs (Decidable False)
  | .call (.submit b) => inferInstanceAs (Decidable (nonOverlapping x (.call (.submit b))))
  | .call .release => inferInstanceAs (Decidable (nonOverlapping x (.call .release)))
  | .call .reboot => inferInstanceAs (Decidable (nonOverlapping x (.call .reboot)))
  | .step i a => inferInstanceAs (Decidable (nonOverlapping x (.step i a)))

/-- A worker that was the last to exit sees the closed pool, a release finds nothing
running and closes the latch, a reboot replaces it, and the worker closes the new
one. -/
theorem latch_closed_by_late_worker :
    ∃ x, Run smallOptions alternating x ∧ x.shared.state = .opened ∧
      (∀ u ∈ x.threads, u.lifecycle = false) ∧ x.shared.events x.shared.allDone = true := by
  obtain ⟨x, hx, hφ⟩ := Program.Reach.exists_of_run
    (P := program smallOptions) (I := Starts smallOptions) (G := alternating) (x := smallPool)
    (m := .call (.submit true) :: steps 2 7 ++ steps 3 2 ++ .call .release :: steps 4 6 ++
      steps 3 2 ++ steps 4 3 ++ steps 1 3 ++ .call .reboot :: steps 5 13 ++ steps 3 2)
    (φ := fun x => decide (x.shared.state = .opened ∧ (∀ u ∈ x.threads, u.lifecycle = false) ∧
      x.shared.events x.shared.allDone = true)) smallPool_starts (by decide)
  exact ⟨x, hx, of_decide_eq_true hφ⟩

end AntsPool
