import AntsPool.ClosedQueue

/-!
# The idle queue and the order of last use

A worker reads the pool's clock and stores the stamp before it takes the lock of
the queue, and so a worker with a later stamp can overtake it. Nothing else puts the
queue out of order: the pool's clock does not go back, a parked worker is not stamped
again, and what leaves the queue leaves the rest as it was. So the queue is sorted in
every run in which the stamped workers take the lock in the order of their readings,
and in particular when the pool's clock is not set while one of them is on its way.
-/
namespace AntsPool
open Interleaving ListTotals

namespace PoolCore

/-- From the oldest to the newest parked worker the stamps do not decrease. -/
def sorted (s : PoolCore) : Prop :=
  s.workers.items.Pairwise fun v w => s.stamp v ≤ s.stamp w

theorem stamp_send (s : PoolCore) (v w : ℕ) (m : Message) : (s.send v m).stamp w = s.stamp w := by
  simp only [stamp, send, Function.update_apply]
  split_ifs with h
  · rw [h]
  · rfl

theorem stamp_finishAll (s : PoolCore) (ws : List ℕ) (w : ℕ) :
    (s.finishAll ws).stamp w = s.stamp w := by
  induction ws generalizing s with
  | nil => rfl
  | cons v ws ih =>
      rw [finishAll, ih]
      exact s.stamp_send v w .finish

end PoolCore

theorem Release.reset_stamp (i : ℕ) (s : PoolCore) (w : ℕ) :
    (Release.reset i s).stamp w = s.stamp w :=
  PoolCore.stamp_finishAll { s with workers := s.workers.reset.2 } _ w

/-- A step adds to the queue only at its end, and otherwise takes workers out. -/
theorem Thread.Step.items_cases {o : Options} {i : ℕ} {s s' : PoolCore} {t t' : Thread}
    {new : List Thread} (h : Thread.Step o i s t s' t' new) :
    (∃ w b, t = .work ⟨w, b, .insert⟩ ∧ s'.workers.items = s.workers.items ++ [w]) ∨
      s'.workers.items.Sublist s.workers.items := by
  rcases h.workers_cases with heq | heq | ⟨w, b, rfl, hi⟩ | heq | heq
  · rw [heq]
    exact .inr (List.Sublist.refl _)
  · rw [heq]
    exact .inr s.workers.detach_sublist
  · exact .inl ⟨w, b, rfl, WorkerQueue.insert_items hi⟩
  · rw [heq]
    exact .inr (s.workers.refresh_sublist s.stamp s.clock o.expiryDuration)
  · rw [heq, s.workers.reset_items.2]
    exact .inr (List.nil_sublist _)

/-- Only the thread of a worker stamps it, apart from the zero of a new worker. -/
theorem Thread.Step.stamp_eq {o : Options} {i : ℕ} {s s' : PoolCore} {t t' : Thread}
    {new : List Thread} (h : Thread.Step o i s t s' t' new) {v : ℕ} (hv : v < s.goWorkerCount)
    (ht : ∀ b, t ≠ .work ⟨v, b, .stamp⟩) : s'.stamp v = s.stamp v := by
  cases h with
  | submit h =>
      cases h with
      | spawnNew => simp only [PoolCore.stamp, Function.update_of_ne hv.ne]
      | input => exact s.stamp_send _ v _
      | _ => rfl
  | work h =>
      cases h with
      | @recvPayload w _ _ _ _ | @recvFinish w _ _ _ =>
          by_cases hw : v = w
          · subst hw
            simp only [PoolCore.stamp, Function.update_self]
          · simp only [PoolCore.stamp, Function.update_of_ne hw]
      | @stamp w b =>
          have hw : v ≠ w := fun hvw => ht b (hvw ▸ rfl)
          simp only [PoolCore.stamp, Function.update_of_ne hw]
      | _ => rfl
  | purge h =>
      cases h with
      | finish => exact s.stamp_send _ v _
      | _ => rfl
  | release h =>
      cases h with
      | reset => exact Release.reset_stamp i s v
      | _ => rfl
  | ticktock h => cases h <;> rfl
  | reboot h => cases h <;> rfl
  | tune h => cases h <;> rfl
  | clock => rfl

/-- Only the clock itself sets the clock. -/
theorem Thread.Step.clock_cases {o : Options} {i : ℕ} {s s' : PoolCore} {t t' : Thread}
    {new : List Thread} (h : Thread.Step o i s t s' t' new) : t = .clock ∨ s'.clock = s.clock := by
  cases h with
  | release h =>
      cases h with
      | reset =>
          obtain ⟨_, _, hr, _⟩ := Release.reset_frame i s
          right
          rw [hr]
      | _ => exact .inr rfl
  | submit h => cases h <;> exact .inr rfl
  | work h => cases h <;> exact .inr rfl
  | purge h => cases h <;> exact .inr rfl
  | ticktock h => cases h <;> exact .inr rfl
  | reboot h => cases h <;> exact .inr rfl
  | tune h => cases h <;> exact .inr rfl
  | clock => exact .inl rfl

/-- The wall clock does not go back. -/
def clockForward {Q : Type} (x : Config Q) : Move → Prop
  | .step _ (.time now) => x.shared.clock ≤ now
  | _ => True

instance {Q : Type} (x : Config Q) : (m : Move) → Decidable (clockForward x m)
  | .step _ (.time now) => inferInstanceAs (Decidable (x.shared.clock ≤ now))
  | .step _ .ok | .step _ .fault | .step _ .deadline | .call _ =>
      inferInstanceAs (Decidable True)

/-- Under a clock that does not go back no step sets it back. -/
theorem clock_le_of_next {o : Options} {x : Config} {i : ℕ} {t : Thread} {a : Env}
    {r : PoolCore × Thread × List Thread} (hg : clockForward x (.step i a))
    (hn : (program o).next x.shared i t a = some r) : x.shared.clock ≤ r.1.clock := by
  rcases (program_step hn).clock_cases with rfl | hclock
  · cases a with
    | time now =>
        cases hn
        exact hg
    | _ => cases hn
  · exact hclock.ge

/-- The two stores to the pool's own clock. -/
def Thread.setsNow : Thread → Bool
  | .ticktock (.store _) | .reboot .ticktockNow => true
  | _ => false

/-- It is only ever set to the wall clock. -/
theorem Thread.Step.now_cases {o : Options} {i : ℕ} {s s' : PoolCore} {t t' : Thread}
    {new : List Thread} (h : Thread.Step o i s t s' t' new) :
    s'.now = s.now ∨ t.setsNow = true ∧ s'.now = s.clock ∧ s'.clock = s.clock := by
  cases h with
  | release h =>
      cases h with
      | reset =>
          obtain ⟨_, _, hr, _⟩ := Release.reset_frame i s
          left
          rw [hr]
      | _ => exact .inl rfl
  | ticktock h =>
      cases h with
      | store => exact .inr ⟨rfl, rfl, rfl⟩
      | _ => exact .inl rfl
  | reboot h =>
      cases h with
      | ticktockNow => exact .inr ⟨rfl, rfl, rfl⟩
      | _ => exact .inl rfl
  | submit h => cases h <;> exact .inl rfl
  | work h => cases h <;> exact .inl rfl
  | purge h => cases h <;> exact .inl rfl
  | tune h => cases h <;> exact .inl rfl
  | clock => exact .inl rfl

namespace Thread

/-- The worker of a thread that waits for the lock with its stamp. -/
def queueing : Thread → Option ℕ
  | .work ⟨w, _, .revertLock⟩ => some w
  | _ => none

/-- The worker of a thread that has stamped it and is on its way into the queue. -/
def stamped : Thread → Option ℕ
  | .work ⟨w, _, .revertLock⟩ | .work ⟨w, _, .insert⟩ => some w
  | _ => none

theorem stamped_eq {t : Thread} {w : ℕ} (h : w ∈ t.stamped) :
    (∃ b, t = .work ⟨w, b, .revertLock⟩) ∨ ∃ b, t = .work ⟨w, b, .insert⟩ := by
  cases t with
  | work t =>
      obtain ⟨v, b, pc⟩ := t
      cases pc with
      | revertLock =>
          cases h
          exact .inl ⟨b, rfl⟩
      | insert =>
          cases h
          exact .inr ⟨b, rfl⟩
      | _ => cases h
  | _ => cases h

theorem holds_of_stamped {t : Thread} {w : ℕ} (h : w ∈ t.stamped) : 1 ≤ t.holds w := by
  rcases stamped_eq h with ⟨b, rfl⟩ | ⟨b, rfl⟩ <;> simp [holds, WorkerPc.owns]

theorem stamped_of_queueing {t : Thread} {w : ℕ} (h : w ∈ t.queueing) : w ∈ t.stamped := by
  cases t with
  | work t =>
      obtain ⟨v, b, pc⟩ := t
      cases pc <;> first | exact h | cases h
  | _ => cases h

theorem stamped_of_inserting {t : Thread} {w : ℕ} (h : w ∈ t.inserting) : w ∈ t.stamped := by
  cases t with
  | work t =>
      obtain ⟨v, b, pc⟩ := t
      cases pc <;> first | exact h | cases h
  | _ => cases h

end Thread

/-- A worker that takes the lock overtakes none with an earlier reading of the clock. -/
def lockInOrder (x : Config) : Move → Prop
  | .call _ => True
  | .step i _ => x.shared.state = .opened → ∀ t ∈ x.threads[i]?, ∀ w ∈ t.queueing,
      ∀ u ∈ x.threads, ∀ v ∈ u.queueing, x.shared.stamp w ≤ x.shared.stamp v

/-- The wall clock does not go back, and nobody is overtaken. -/
def clockInOrder (x : Config) (m : Move) : Prop := clockForward x m ∧ lockInOrder x m

instance (x : Config) : (m : Move) → Decidable (clockInOrder x m)
  | .call _ => inferInstanceAs (Decidable (_ ∧ True))
  | .step i _ => inferInstanceAs (Decidable (_ ∧ (x.shared.state = .opened →
      ∀ t ∈ x.threads[i]?, ∀ w ∈ t.queueing, ∀ u ∈ x.threads, ∀ v ∈ u.queueing,
        x.shared.stamp w ≤ x.shared.stamp v)))

namespace Run
variable {o : Options} {G : Guard} {x : Config}

theorem existing_of_place (h : Run o G x) {w : ℕ} (hw : 0 < places x w) :
    w < x.shared.goWorkerCount := by
  have hplaces := h.places_eq w
  unfold PoolCore.existing at hplaces
  split_ifs at hplaces with hlt
  · exact hlt
  · omega

theorem existing_of_parked (h : Run o G x) {w : ℕ} (hw : w ∈ x.shared.workers.items) :
    w < x.shared.goWorkerCount := by
  refine h.existing_of_place ?_
  have hcount := List.one_le_count_iff.mpr hw
  have hthreads := total_nonneg (l := x.threads) (f := fun t : Thread => (t.holds w : ℤ))
    fun t _ => Int.natCast_nonneg _
  unfold places
  omega

/-- No step changes the stamp of a worker that is parked. -/
theorem stamp_of_parked (h : Run o G x) {i : ℕ} {t t' : Thread} {s' : PoolCore}
    {new : List Thread} (ht : x.threads[i]? = some t) (hs : Thread.Step o i x.shared t s' t' new)
    {w : ℕ} (hw : w ∈ x.shared.workers.items) : s'.stamp w = x.shared.stamp w := by
  refine hs.stamp_eq (h.existing_of_parked hw) fun b hb => ?_
  subst hb
  refine h.not_queued_of_holds (List.mem_of_getElem? ht) (w := w) ?_ hw
  simp [Thread.holds, WorkerPc.owns]

/-- Nor that of a worker on its way into the queue. -/
theorem stamp_of_stamped (h : Run o G x) {i j : ℕ} {t t' u : Thread} {s' : PoolCore}
    {new : List Thread} (ht : x.threads[i]? = some t) (hs : Thread.Step o i x.shared t s' t' new)
    (hu : x.threads[j]? = some u) {w : ℕ} (hw : w ∈ u.stamped) :
    s'.stamp w = x.shared.stamp w := by
  have hholds := Thread.holds_of_stamped hw
  refine hs.stamp_eq (h.existing_of_place ?_) fun b hb => ?_
  · have hle := holds_le_places w (List.mem_of_getElem? hu)
    omega
  · subst hb
    obtain rfl := h.holder_eq ht hu (w := w) (by simp [Thread.holds, WorkerPc.owns]) hholds
    cases ht.symm.trans hu
    cases hw

end Run

/-- What a step does on the way of a worker into the queue. -/
inductive StampStep (s : PoolCore) (t : Thread) (s' : PoolCore) (t' : Thread) : Prop
  | stamp {w b} (ht : t = .work ⟨w, b, .stamp⟩) (ht' : t' = .work ⟨w, b, .revertLock⟩)
      (hnew : s'.stamp w = s.now) (hitems : s'.workers.items = s.workers.items)
  | lock {w b} (hl : s.locked = false) (ho : s.state = .opened)
      (ht : t = .work ⟨w, b, .revertLock⟩) (ht' : t' = .work ⟨w, b, .insert⟩)
      (hitems : s'.workers.items = s.workers.items)
  | insert {w b} (ht : t = .work ⟨w, b, .insert⟩) (ht' : t'.stamped = none)
      (hitems : s'.workers.items = s.workers.items ++ [w])
  | leave (ht' : t'.stamped = none) (hsub : s'.workers.items.Sublist s.workers.items)

theorem Thread.Step.stampStep {o : Options} {i : ℕ} {s s' : PoolCore} {t t' : Thread}
    {new : List Thread} (h : Thread.Step o i s t s' t' new) : StampStep s t s' t' := by
  rcases h.items_cases with ⟨w, b, rfl, hitems⟩ | hsub
  · refine .insert rfl ?_ hitems
    cases h with
    | work h => cases h <;> rfl
  · cases h with
    | work h =>
        cases h with
        | stamp => exact .stamp rfl rfl (by simp [PoolCore.stamp]) rfl
        | lockOpened hl ho => exact .lock hl ho rfl rfl rfl
        | _ => exact .leave rfl hsub
    | _ => exact .leave rfl hsub

/-- The workers of the queue `l`, the one being put in and those that wait to be are stamped
in this order, none of them later than now. -/
structure InLine (s : PoolCore) (l : List ℕ) (ts : List Thread) : Prop where
  now_le : s.now ≤ s.clock
  sorted : l.Pairwise fun v w => s.stamp v ≤ s.stamp w
  parked : ∀ v ∈ l, s.stamp v ≤ s.now
  stamped : ∀ (j : ℕ) (u : Thread), ts[j]? = some u → ∀ w ∈ u.stamped,
    s.stamp w ≤ s.now ∧ ∀ v ∈ l, s.stamp v ≤ s.stamp w
  inserting : ∀ (j k : ℕ) (t u : Thread), ts[j]? = some t → ts[k]? = some u →
    ∀ v ∈ t.inserting, ∀ w ∈ u.stamped, s.stamp v ≤ s.stamp w

namespace InLine
variable {s s' : PoolCore} {l l' : List ℕ} {ts ts' : List Thread} {i : ℕ} {t t' : Thread}

/-- The stamps that count stay and the clocks go on. -/
theorem mono (h : InLine s l ts) (hnow : s.now ≤ s'.now) (hle : s'.now ≤ s'.clock)
    (hparked : ∀ v ∈ l, s'.stamp v = s.stamp v)
    (hstamped : ∀ (j : ℕ) (u : Thread), ts[j]? = some u → ∀ w ∈ u.stamped,
      s'.stamp w = s.stamp w) : InLine s' l ts where
  now_le := hle
  sorted := h.sorted.imp_of_mem fun hv hw hvw => by rwa [hparked _ hv, hparked _ hw]
  parked v hv := (hparked v hv).trans_le ((h.parked v hv).trans hnow)
  stamped j u hu w hw := by
    obtain ⟨hw_now, hbehind⟩ := h.stamped j u hu w hw
    rw [hstamped j u hu w hw]
    exact ⟨hw_now.trans hnow, fun v hv => (hparked v hv).trans_le (hbehind v hv)⟩
  inserting j k t u ht hu v hv w hw := by
    rw [hstamped j t ht v (Thread.stamped_of_inserting hv), hstamped k u hu w hw]
    exact h.inserting j k t u ht hu v hv w hw

/-- Workers leave the queue, and nobody comes on the way. -/
theorem leave (h : InLine s l ts) (hsub : l'.Sublist l)
    (hafter : ∀ (j : ℕ) (u : Thread), ts'[j]? = some u → ∀ w ∈ u.stamped, ts[j]? = some u) :
    InLine s l' ts' where
  now_le := h.now_le
  sorted := h.sorted.sublist hsub
  parked v hv := h.parked v (hsub.subset hv)
  stamped j u hu w hw := by
    obtain ⟨hnow, hbehind⟩ := h.stamped j u (hafter j u hu w hw) w hw
    exact ⟨hnow, fun v hv => hbehind v (hsub.subset hv)⟩
  inserting j k t u ht hu v hv w hw :=
    h.inserting j k t u (hafter j t ht v (Thread.stamped_of_inserting hv)) (hafter k u hu w hw)
      v hv w hw

/-- A worker is stamped with a time that none of the others is stamped after. -/
theorem stamp (h : InLine s l ts) {p : ℕ} {b : Bool} (hnow : s.stamp p ≤ s.now)
    (hparked : ∀ v ∈ l, s.stamp v ≤ s.stamp p)
    (hinserting : ∀ (j : ℕ) (u : Thread), ts[j]? = some u → ∀ v ∈ u.inserting,
      s.stamp v ≤ s.stamp p)
    (hafter : ∀ (j : ℕ) (u : Thread), ts'[j]? = some u → ∀ w ∈ u.stamped,
      ts[j]? = some u ∨ u = .work ⟨p, b, .revertLock⟩) : InLine s l ts' where
  now_le := h.now_le
  sorted := h.sorted
  parked := h.parked
  stamped j u hu w hw := by
    rcases hafter j u hu w hw with hu | rfl
    · exact h.stamped j u hu w hw
    · cases hw
      exact ⟨hnow, hparked⟩
  inserting j k t u ht hu v hv w hw := by
    rcases hafter j t ht v (Thread.stamped_of_inserting hv) with ht | rfl
    · rcases hafter k u hu w hw with hu | rfl
      · exact h.inserting j k t u ht hu v hv w hw
      · cases hw
        exact hinserting j t ht v hv
    · cases hv

/-- A worker that waited takes the lock, none of the others having an earlier stamp. -/
theorem lock (h : InLine s l ts) {p : ℕ} {b : Bool}
    (ht : ts[i]? = some (.work ⟨p, b, .revertLock⟩))
    (hfree : ∀ (j : ℕ) (u : Thread), ts[j]? = some u → u.inserting = none)
    (hguard : ∀ (j : ℕ) (u : Thread), ts[j]? = some u → ∀ w ∈ u.queueing, s.stamp p ≤ s.stamp w)
    (hafter : ∀ (j : ℕ) (u : Thread), ts'[j]? = some u → ∀ w ∈ u.stamped,
      ts[j]? = some u ∨ u = .work ⟨p, b, .insert⟩) : InLine s l ts' where
  now_le := h.now_le
  sorted := h.sorted
  parked := h.parked
  stamped j u hu w hw := by
    rcases hafter j u hu w hw with hu | rfl
    · exact h.stamped j u hu w hw
    · cases hw
      exact h.stamped i _ ht p rfl
  inserting j k t u ht hu v hv w hw := by
    rcases hafter j t ht v (Thread.stamped_of_inserting hv) with ht | rfl
    · cases (hfree j t ht).symm.trans hv
    · cases hv
      rcases hafter k u hu w hw with hu | rfl
      · rcases Thread.stamped_eq hw with ⟨c, rfl⟩ | ⟨c, rfl⟩
        · exact hguard k _ hu w rfl
        · cases hfree k _ hu
      · cases hw
        exact le_rfl

/-- The holder of the lock puts its worker in, behind all that are parked. -/
theorem insert (h : InLine s l ts) {p : ℕ} {b : Bool}
    (ht : ts[i]? = some (.work ⟨p, b, .insert⟩))
    (hfree : ∀ (j : ℕ) (u : Thread), ts'[j]? = some u → u.inserting = none)
    (hafter : ∀ (j : ℕ) (u : Thread), ts'[j]? = some u → ∀ w ∈ u.stamped, ts[j]? = some u) :
    InLine s (l ++ [p]) ts' := by
  obtain ⟨hnow, hbehind⟩ := h.stamped i _ ht p rfl
  refine ⟨h.now_le, ?_, ?_, ?_, ?_⟩
  · refine List.pairwise_append.mpr ⟨h.sorted, List.pairwise_singleton _ p, fun v hv u hu => ?_⟩
    exact List.mem_singleton.mp hu ▸ hbehind v hv
  · intro v hv
    rcases List.mem_append.mp hv with hv | hv
    · exact h.parked v hv
    · exact List.mem_singleton.mp hv ▸ hnow
  · intro j u hu w hw
    have hu := hafter j u hu w hw
    refine ⟨(h.stamped j u hu w hw).1, fun v hv => ?_⟩
    rcases List.mem_append.mp hv with hv | hv
    · exact (h.stamped j u hu w hw).2 v hv
    · exact List.mem_singleton.mp hv ▸ h.inserting i j _ u ht hu p rfl w hw
  · intro j k t u ht _ v hv
    cases (hfree j t ht).symm.trans hv

end InLine

namespace Run
variable {o : Options} {G : Guard} {x : Config} {i : ℕ} {a : Env} {t t' : Thread}
  {s' : PoolCore} {new : List Thread}

/-- A thread on the way after a step was on it before, or is the one that made it. -/
theorem stamped_after (ht : x.threads[i]? = some t)
    (hs : Thread.Step o i x.shared t s' t' new) {j : ℕ} {u : Thread}
    (hu : (x.after i (s', t', new)).threads[j]? = some u) {w : ℕ} (hw : w ∈ u.stamped) :
    (j ≠ i ∧ x.threads[j]? = some u) ∨ u = t' := by
  rcases Config.getElem?_after ht hu with ⟨_, rfl⟩ | hj | ⟨_, hu⟩
  · exact .inr rfl
  · exact .inl hj
  · rcases hs.new_cases hu with ⟨v, rfl⟩ | rfl | rfl <;> cases hw

theorem inLine_step (h : Run o G x) (hx : InLine x.shared x.shared.workers.items x.threads)
    (hg : clockInOrder x (.step i a)) (ht : x.threads[i]? = some t)
    (hn : (program o).next x.shared i t a = some (s', t', new)) :
    InLine s' s'.workers.items (x.after i (s', t', new)).threads := by
  have hs : Thread.Step o i x.shared t s' t' new := program_step hn
  have hclock : x.shared.clock ≤ s'.clock := clock_le_of_next hg.1 hn
  have hnow : x.shared.now ≤ s'.now ∧ s'.now ≤ s'.clock := by
    have := hx.now_le
    rcases hs.now_cases with h | ⟨_, h, h'⟩ <;> constructor <;> omega
  have hparked : ∀ v ∈ x.shared.workers.items, s'.stamp v = x.shared.stamp v :=
    fun v hv => h.stamp_of_parked ht hs hv
  have hstamped : ∀ (j : ℕ) (u : Thread), x.threads[j]? = some u → ∀ w ∈ u.stamped,
      s'.stamp w = x.shared.stamp w := fun j u hu w hw => h.stamp_of_stamped ht hs hu hw
  have hkept := hx.mono hnow.1 hnow.2 hparked hstamped
  cases hs.stampStep with
  | @stamp w₀ b ht₀ ht' hnew hitems =>
      rw [hitems]
      refine hkept.stamp (p := w₀) (b := b) ?_ ?_ ?_ fun j u hu w hw => ?_
      · exact hnew ▸ hnow.1
      · intro v hv
        rw [hnew, hparked v hv]
        exact hx.parked v hv
      · intro j u hu v hv
        have hv := Thread.stamped_of_inserting hv
        rw [hnew, hstamped j u hu v hv]
        exact (hx.stamped j u hu v hv).1
      · exact (stamped_after ht hs hu hw).imp And.right fun he => he.trans ht'
  | @lock w₀ b hl ho ht₀ ht' hitems =>
      subst ht₀
      rw [hitems]
      refine hkept.lock (p := w₀) (b := b) ht ?_ ?_ fun j u hu w hw => ?_
      · intro j u hu
        refine Option.eq_none_iff_forall_not_mem.mpr fun v hv => ?_
        have hlock := h.locked_of_holds (List.mem_of_getElem? hu)
          (Thread.holdsLock_of_inserting hv)
        cases hl.symm.trans hlock
      · intro j u hu w hw
        have hw' : w ∈ u.stamped := Thread.stamped_of_queueing hw
        rw [hstamped i _ ht w₀ rfl, hstamped j u hu w hw']
        exact hg.2 ho _ ht w₀ rfl u (List.mem_of_getElem? hu) w hw
      · exact (stamped_after ht hs hu hw).imp And.right fun he => he.trans ht'
  | @insert w₀ b ht₀ ht' hitems =>
      subst ht₀
      have hafter : ∀ (j : ℕ) (u : Thread), (x.after i (s', t', new)).threads[j]? = some u →
          ∀ w ∈ u.stamped, j ≠ i ∧ x.threads[j]? = some u := by
        intro j u hu w hw
        rcases stamped_after ht hs hu hw with hj | rfl
        · exact hj
        · cases ht'.symm.trans hw
      rw [hitems]
      refine hkept.insert (p := w₀) (b := b) ht ?_ fun j u hu w hw => (hafter j u hu w hw).2
      intro j u hu
      refine Option.eq_none_iff_forall_not_mem.mpr fun v hv => ?_
      obtain ⟨hne, hu⟩ := hafter j u hu v (Thread.stamped_of_inserting hv)
      exact hne (h.holder_unique hu ht (Thread.holdsLock_of_inserting hv) rfl)
  | leave ht' hsub =>
      refine hkept.leave hsub fun j u hu w hw => ?_
      rcases stamped_after ht hs hu hw with ⟨_, hj⟩ | rfl
      · exact hj
      · cases ht'.symm.trans hw

theorem inLine (hG : ∀ x m, G x m → clockInOrder x m) (h : Run o G x) :
    InLine x.shared x.shared.workers.items x.threads := by
  refine Program.Reach.invariant
    (J := fun x => InLine x.shared x.shared.workers.items x.threads) ?_ ?_ ?_ h
  · intro y hy
    have hf := hy.fresh
    have hstamped : ∀ (j : ℕ) (u : Thread), y.threads[j]? = some u → ∀ w, w ∉ u.stamped := by
      intro j u hu w hw
      rcases hf.threads u (List.mem_of_getElem? hu) with rfl | rfl | rfl <;> cases hw
    rw [hf.idle]
    exact ⟨hf.now.le, .nil, nofun, fun j u hu w hw => (hstamped j u hu w hw).elim,
      fun _ k _ u _ hu _ _ w hw => (hstamped k u hu w hw).elim⟩
  · intro y c _ hy _
    refine hy.leave (List.Sublist.refl _) fun j u hu w hw => ?_
    rcases getElem?_concat_cases hu with hu | ⟨_, rfl⟩
    · exact hu
    · cases c <;> cases hw
  · rintro y i a t ⟨s', t', new⟩ hr hy hg ht hn
    have hrun : Run o G y := hr
    exact hrun.inLine_step hy (hG _ _ hg) ht hn

end Run

/-- In every run in which the clock does not go back and the stamped workers take the lock in
the order of their readings, both queues hold the parked workers in the order of their
last use. -/
theorem idle_queue_sorted {o : Options} {x : Config} (h : Run o clockInOrder x) :
    x.shared.workers.items.Pairwise fun v w => x.shared.stamp v ≤ x.shared.stamp w :=
  (h.inLine fun _ _ hm => hm).sorted

/-- The pool's clock is not set while a worker is on its way with a reading of it. -/
def nowSteady (x : Config) : Move → Prop
  | .call _ => True
  | .step i _ => ∀ t ∈ x.threads[i]?, t.setsNow = true → ∀ u ∈ x.threads, u.stamped = none

/-- Then all on the way carry the same stamp, and nobody can be overtaken. -/
theorem Run.clockInOrder_of_nowSteady {o : Options} {x : Config}
    (h : Run o (fun x m => clockForward x m ∧ nowSteady x m) x) : Run o clockInOrder x := by
  refine Program.Reach.strengthen (fun y m hy hg => ⟨hg.1, ?_⟩) h
  have hsame : ∀ (j : ℕ) (u : Thread), y.threads[j]? = some u → ∀ w ∈ u.stamped,
      y.shared.stamp w = y.shared.now := by
    refine Program.Reach.invariant (J := fun y => ∀ (j : ℕ) (u : Thread),
      y.threads[j]? = some u → ∀ w ∈ u.stamped, y.shared.stamp w = y.shared.now) ?_ ?_ ?_ hy
    · intro z hz j u hu w hw
      rcases hz.fresh.threads u (List.mem_of_getElem? hu) with rfl | rfl | rfl <;> cases hw
    · intro z c _ hz _ j u hu w hw
      rcases getElem?_concat_cases hu with hu | ⟨_, rfl⟩
      · exact hz j u hu w hw
      · cases c <;> cases hw
    · rintro z i a t ⟨s', t', new⟩ hr hz hg ht hn j u hu w hw
      have hs : Thread.Step o i z.shared t s' t' new := program_step hn
      change s'.stamp w = s'.now
      rcases stamped_after ht hs hu hw with ⟨_, hu⟩ | rfl
      · rw [Run.stamp_of_stamped hr ht hs hu hw, hz j u hu w hw]
        rcases hs.now_cases with hnow | ⟨hset, _⟩
        · exact hnow.symm
        · cases (hg.2 t ht hset u (List.mem_of_getElem? hu)).symm.trans hw
      · cases hs.stampStep with
        | stamp ht₀ ht' hnew =>
            subst ht₀ ht'
            cases hw
            rcases hs.now_cases with hnow | ⟨hset, _⟩
            · exact hnew.trans hnow.symm
            · cases hset
        | lock hl ho ht₀ ht' =>
            subst ht₀ ht'
            cases hw
            rcases hs.now_cases with hnow | ⟨hset, _⟩
            · rw [Run.stamp_of_stamped hr ht hs ht rfl, hz i _ ht w rfl, hnow]
            · cases hset
        | insert _ ht' | leave ht' => cases ht'.symm.trans hw
  cases m with
  | call c => trivial
  | step i a =>
      intro _ t ht w hw u hu v hv
      obtain ⟨j, hj⟩ := List.mem_iff_getElem?.mp hu
      rw [hsame i t ht w (Thread.stamped_of_queueing hw),
        hsame j u hj v (Thread.stamped_of_queueing hv)]

/-- A pool with two slots. -/
def pairPool : Config := (((PoolCore.new 2 smallOptions 0).get rfl).toOption.get rfl).2

theorem pairPool_starts : Starts smallOptions pairPool := ⟨2, smallOptions, 0, rfl⟩

/-- Two callers start a worker each and hand their payloads over. -/
def pairMoves : List Move :=
  .call (.submit false) :: steps 2 7 ++ .call (.submit false) :: steps 4 7

theorem idle_queue_sorted_pair :
    ∃ x, Run smallOptions clockInOrder x ∧ x.shared.workers.items = [0, 1] ∧ x.shared.stamp 1 = 1 ∧
      x.shared.workers.items.Pairwise fun v w => x.shared.stamp v ≤ x.shared.stamp w := by
  obtain ⟨x, hx, hφ⟩ := Program.Reach.exists_of_run
    (P := program smallOptions) (I := Starts smallOptions) (G := clockInOrder) (x := pairPool)
    (m := pairMoves ++ steps 3 8 ++ .step 0 (.time 1) :: steps 1 4 ++ steps 5 8)
    (φ := fun x => decide (x.shared.workers.items = [0, 1] ∧ x.shared.stamp 1 = 1))
    pairPool_starts (by decide)
  obtain ⟨hitems, hstamp⟩ := of_decide_eq_true hφ
  exact ⟨x, hx, hitems, hstamp, idle_queue_sorted hx⟩

/-- Worker 0 stamps itself, the clock ticks, and worker 1 stamps itself and is the
first to take the lock. -/
theorem idle_queue_out_of_order :
    ∃ x, Run smallOptions clockForward x ∧ x.shared.workers.items = [1, 0] ∧
      ¬ x.shared.workers.items.Pairwise fun v w => x.shared.stamp v ≤ x.shared.stamp w := by
  obtain ⟨x, hx, hφ⟩ := Program.Reach.exists_of_run
    (P := program smallOptions) (I := Starts smallOptions) (G := clockForward) (x := pairPool)
    (m := pairMoves ++ steps 3 6 ++ .step 0 (.time 1) :: steps 1 4 ++ steps 5 8 ++ steps 3 2)
    (φ := fun x => decide (x.shared.workers.items = [1, 0] ∧
      ¬ x.shared.workers.items.Pairwise fun v w => x.shared.stamp v ≤ x.shared.stamp w))
    pairPool_starts (by decide)
  exact ⟨x, hx, of_decide_eq_true hφ⟩

end AntsPool
