import AntsPool.HandOff

/-!
# A closed pool parks no worker

Between the exchange of a release and its reset the queue of a closed pool may
still hold workers, but none that has been sent a `Finish` since. The reset
empties the queue while it has the lock, so no worker is in the middle of an
insert; later ones see the closed pool under the lock and exit.
-/
namespace AntsPool
open Interleaving ListTotals

/-- Before the exchange of `release()`. -/
def ReleasePc.beforeExchange : ReleasePc → Bool
  | .entryClosed | .entryPurge | .entryTicktock | .copyPurgeCtx | .copyTicktockCtx | .exchange =>
      true
  | _ => false

/-- Between the exchange and the reset. -/
def ReleasePc.closing : ReleasePc → Bool
  | .takePurge | .cancelPurge _ | .takeTicktock | .cancelTicktock _ | .reset => true
  | _ => false

theorem Release.reset_past (i : ℕ) (s : PoolCore) :
    (Release.reset i s).past = { s.past with
      finished := s.workers.items.reverse ++ s.past.finished,
      drained := if s.past.closer = some i then some s.workers.items else s.past.drained } := by
  simp only [reset, IdleQueue.reset_eq, IdleQueue.items_eq, PoolCore.past_finishAll,
    s.workers.reset_items.1]

theorem Release.reset_state (i : ℕ) (s : PoolCore) : (Release.reset i s).state = s.state := by
  obtain ⟨_, _, hr, _⟩ := Release.reset_frame i s
  rw [hr]

namespace Thread

/-- The worker a thread is about to insert. -/
def inserting : Thread → Option ℕ
  | .work ⟨w, _, .insert⟩ => some w
  | _ => none

/-- The workers the scavenger has yet to finish. -/
def stale : Thread → List ℕ
  | .purge (.finish _ stale _) => stale
  | _ => []

def beforeExchange : Thread → Bool
  | .release t => t.pc.beforeExchange
  | _ => false

def closing : Thread → Bool
  | .release t => t.pc.closing
  | _ => false

end Thread

/-- What a step does to the queue, to the state and to the history of the last
closing. -/
inductive QueueStep (i : ℕ) (s : PoolCore) (t : Thread) (s' : PoolCore) (t' : Thread) : Prop
  | exchange (hs : s' = { s with
          state := .closed,
          past := { s.past with closer := some i, finished := [], drained := none } })
      (ho : s.state = .opened) (ht : t'.closing = true)
  | reopen (hs : s' = { s with state := .opened })
  | reset {m p k} (hl : s.locked = false) (hs : s' = Release.reset i s)
      (ht' : t' = .release ⟨m, p, k, .broadcast⟩)
  | finish {c w stale b} (hs : s' = s.finish w) (ht : t = .purge (.finish c (w :: stale) b))
      (ht' : t' = .purge (.finish c stale b))
  | insert {w b} (hq : s'.workers.items = s.workers.items ++ [w])
      (hs : s'.state = s.state ∧ s'.past = s.past) (ht : t = .work ⟨w, b, .insert⟩)
      (ht' : t' = .work ⟨w, b, .recv⟩)
  | refresh {c stale b} (hq : s.workers.items.Perm (stale ++ s'.workers.items))
      (hs : s'.state = s.state ∧ s'.past = s.past) (ht : t = .purge (.refresh c))
      (ht' : t' = .purge (.finish c stale b))
  | quiet (hq : s'.workers.items ⊆ s.workers.items)
      (hs : s'.state = s.state ∧ s'.past.finished = s.past.finished ∧
        s'.past.drained = s.past.drained ∧ s'.past.closer = s.past.closer)
      (ht : t'.inserting = none ∨ s.state = .opened) (ht' : t'.stale = [])
      (hb : t'.beforeExchange = true → t.beforeExchange = true)
      (hc : t'.closing = false → t.closing = false)

theorem Thread.Step.queueStep {o : Options} {i : ℕ} {s s' : PoolCore} {t t' : Thread}
    {new : List Thread} (h : Thread.Step o i s t s' t' new) : QueueStep i s t s' t' := by
  cases h with
  | submit h =>
      cases h with
      | detachSome _ hd | recheckSome _ hd =>
          exact .quiet (fun v hv => (WorkerQueue.detach_some hd).mem_iff.mpr (.tail _ hv))
            ⟨rfl, rfl, rfl, rfl⟩ (.inl rfl) rfl (fun h => by cases h) fun _ => rfl
      | detachNone _ hd | recheckNone _ hd =>
          obtain ⟨_, hq⟩ := WorkerQueue.detach_none hd
          exact .quiet (by simp [hq]) ⟨rfl, rfl, rfl, rfl⟩ (.inl rfl) rfl
            (fun h => by cases h) fun _ => rfl
      | _ =>
          exact .quiet (List.Subset.refl _) ⟨rfl, rfl, rfl, rfl⟩ (.inl rfl) rfl
            (fun h => by cases h) fun _ => rfl
  | work h =>
      cases h with
      | insertOk hi => exact .insert (WorkerQueue.insert_items hi) ⟨rfl, rfl⟩ rfl rfl
      | lockOpened hl ho =>
          exact .quiet (List.Subset.refl _) ⟨rfl, rfl, rfl, rfl⟩ (.inr ho) rfl
            (fun h => by cases h) fun _ => rfl
      | _ =>
          exact .quiet (List.Subset.refl _) ⟨rfl, rfl, rfl, rfl⟩ (.inl rfl) rfl
            (fun h => by cases h) fun _ => rfl
  | purge h =>
      cases h with
      | refresh hl hr hb =>
          have hperm := s.workers.refresh_perm s.stamp s.clock o.expiryDuration
          rw [hr] at hperm
          exact .refresh hperm ⟨rfl, rfl⟩ rfl rfl
      | finish => exact .finish rfl rfl rfl
      | _ =>
          exact .quiet (List.Subset.refl _) ⟨rfl, rfl, rfl, rfl⟩ (.inl rfl) rfl
            (fun h => by cases h) fun _ => rfl
  | release h =>
      cases h with
      | exchange ho => exact .exchange rfl ho rfl
      | reset hl => exact .reset hl rfl rfl
      | exchangeFails _ ha | busy _ ha | latchClose ha =>
          cases ha <;>
          exact .quiet (List.Subset.refl _) ⟨rfl, rfl, rfl, rfl⟩ (.inl rfl) rfl
            (fun h => by cases h) fun _ => rfl
      | _ =>
          exact .quiet (List.Subset.refl _) ⟨rfl, rfl, rfl, rfl⟩ (.inl rfl) rfl
            (fun h => by first | rfl | cases h) fun h => by first | rfl | cases h
  | reboot h =>
      cases h with
      | exchange => exact .reopen rfl
      | _ =>
          exact .quiet (List.Subset.refl _) ⟨rfl, rfl, rfl, rfl⟩ (.inl rfl) rfl
            (fun h => by cases h) fun _ => rfl
  | ticktock h =>
      cases h <;>
      exact .quiet (List.Subset.refl _) ⟨rfl, rfl, rfl, rfl⟩ (.inl rfl) rfl
        (fun h => by cases h) fun _ => rfl
  | tune h =>
      cases h <;>
      exact .quiet (List.Subset.refl _) ⟨rfl, rfl, rfl, rfl⟩ (.inl rfl) rfl
        (fun h => by cases h) fun _ => rfl
  | clock =>
      exact .quiet (List.Subset.refl _) ⟨rfl, rfl, rfl, rfl⟩ (.inl rfl) rfl
        (fun h => by cases h) fun _ => rfl

theorem QueueStep.closer {i : ℕ} {s s' : PoolCore} {t t' : Thread} (h : QueueStep i s t s' t') :
    s'.past.closer = s.past.closer ∨ s'.past.closer = some i := by
  cases h with
  | exchange hp => exact .inr (by rw [hp])
  | reopen hp => exact .inl (by rw [hp])
  | reset _ hp => exact .inl (by rw [hp, Release.reset_past])
  | finish hp =>
      rw [hp]
      exact .inl rfl
  | insert _ hp => exact .inl (by rw [hp.2])
  | refresh _ hp => exact .inl (by rw [hp.2])
  | quiet _ hp => exact .inl hp.2.2.2

/-- Only the holder of the lock that is inserting adds to the queue. -/
theorem QueueStep.items {i : ℕ} {s s' : PoolCore} {t t' : Thread} (h : QueueStep i s t s' t') :
    s'.workers.items ⊆ s.workers.items ∨ t.holdsLock = true := by
  cases h with
  | exchange hp | reopen hp =>
      rw [hp]
      exact .inl (List.Subset.refl _)
  | reset _ hp =>
      rw [hp, Release.reset_items]
      exact .inl (List.nil_subset _)
  | finish hp =>
      rw [hp]
      exact .inl (List.Subset.refl _)
  | insert _ _ ht => exact .inr (ht ▸ rfl)
  | refresh hq => exact .inl fun v hv => hq.mem_iff.mpr (List.mem_append_right _ hv)
  | quiet hq => exact .inl hq

/-- The queue of a closed pool. -/
structure ClosedQueue (s : PoolCore) : Prop where
  unfinished : ∀ w ∈ s.workers.items, w ∉ s.past.finished
  drained : ∀ l, s.past.drained = some l →
    s.workers.items = [] ∧ ∀ w ∈ l, s.past.finished.count w = 1

/-- A thread of a closed pool. -/
structure ClosedThread (s : PoolCore) (i : ℕ) (t : Thread) : Prop where
  inserting : ∀ w, t.inserting = some w → w ∉ s.past.finished ∧ s.past.drained = none
  stale : ∀ l, s.past.drained = some l → ∀ w ∈ l, w ∉ t.stale
  started : s.past.closer = some i → t.beforeExchange = false
  reset : s.past.closer = some i → t.closing = false → ∃ l, s.past.drained = some l

namespace Thread

theorem holds_of_inserting {t : Thread} {w : ℕ} (h : t.inserting = some w) : t.holds w = 1 := by
  cases t with
  | work t =>
      obtain ⟨v, b, pc⟩ := t
      cases pc with
      | insert =>
          cases h
          simp [holds, WorkerPc.owns]
      | _ => cases h
  | _ => cases h

theorem holdsLock_of_inserting {t : Thread} {w : ℕ} (h : t.inserting = some w) :
    t.holdsLock = true := by
  cases t with
  | work t =>
      obtain ⟨v, b, pc⟩ := t
      cases pc <;> first | rfl | cases h
  | _ => cases h

theorem holds_of_stale {t : Thread} {w : ℕ} (h : w ∈ t.stale) : 1 ≤ t.holds w := by
  cases t with
  | purge t =>
      cases t with
      | finish c l b => exact List.one_le_count_iff.mpr h
      | _ => cases h
  | _ => cases h

end Thread

namespace Run
variable {o : Options} {G : Guard} {x : Config}

theorem not_queued_of_holds (h : Run o G x) {t : Thread} (ht : t ∈ x.threads) {w : ℕ}
    (hw : 1 ≤ t.holds w) : w ∉ x.shared.workers.items := by
  intro hmem
  have hle := h.place_le w
  have hcount := List.one_le_count_iff.mpr hmem
  have hthread := le_total (f := fun t : Thread => (t.holds w : ℤ))
    (fun _ => Int.natCast_nonneg _) ht
  unfold places at hle
  omega

/-- Two threads do not hold the same worker. -/
theorem holder_eq (h : Run o G x) {i j : ℕ} {t u : Thread} (hi : x.threads[i]? = some t)
    (hj : x.threads[j]? = some u) {w : ℕ} (ht : 1 ≤ t.holds w) (hu : 1 ≤ u.holds w) : i = j := by
  by_contra hij
  have hle := h.place_le w
  have htwo := add_le_total (f := fun t : Thread => (t.holds w : ℤ))
    (fun _ => Int.natCast_nonneg _) hij hi hj
  unfold places at hle
  omega

theorem closer_lt (h : Run o G x) : ∀ k, x.shared.past.closer = some k → k < x.threads.length := by
  refine Run.invariant
    (J := fun x => ∀ k, x.shared.past.closer = some k → k < x.threads.length) ?_ ?_ ?_ h
  · intro y hy k hk
    rw [hy.closer] at hk
    cases hk
  · intro y c _ hy _ k hk
    have := hy k hk
    simp only [List.length_append]
    omega
  · intro y i a t s' t' new _ hy _ ht hs k hk
    have hlen := Config.length_le_after y i (s', t', new)
    change s'.past.closer = some k at hk
    rcases hs.queueStep.closer with hc | hc
    · exact (hy k (hc ▸ hk)).trans_le hlen
    · cases hc.symm.trans hk
      exact (List.getElem?_eq_some_iff.mp ht).1.trans_le hlen

end Run

theorem Thread.started_of_closing {t : Thread} (h : t.closing = true) :
    t.beforeExchange = false := by
  cases t with
  | release t =>
      obtain ⟨m, p, k, pc⟩ := t
      cases pc <;> first | rfl | cases h
  | _ => rfl

theorem ClosedThread.congr {s s' : PoolCore} {i : ℕ} {t : Thread} (h : ClosedThread s i t)
    (hf : s'.past.finished = s.past.finished) (hd : s'.past.drained = s.past.drained)
    (hc : s'.past.closer = s.past.closer) : ClosedThread s' i t :=
  ⟨by rw [hf, hd]; exact h.inserting, by rw [hd]; exact h.stale, by rw [hc]; exact h.started,
    by rw [hc, hd]; exact h.reset⟩

theorem ClosedThread.of_not_closer {s : PoolCore} {i : ℕ} {t : Thread} (hins : t.inserting = none)
    (hst : t.stale = []) (hcl : s.past.closer ≠ some i) : ClosedThread s i t where
  inserting w hw := by cases hins.symm.trans hw
  stale _ _ _ _ := hst ▸ List.not_mem_nil
  started h := (hcl h).elim
  reset h := (hcl h).elim

namespace ClosedQueue
variable {s s' : PoolCore}

theorem insert (h : ClosedQueue s) {w : ℕ} (hq : s'.workers.items = s.workers.items ++ [w])
    (hp : s'.past = s.past) (hw : w ∉ s.past.finished) (hd : s.past.drained = none) :
    ClosedQueue s' where
  unfinished v hv := by
    rw [hq] at hv
    rw [hp]
    rcases List.mem_append.mp hv with hv | hv
    · exact h.unfinished v hv
    · exact List.mem_singleton.mp hv ▸ hw
  drained l hl := by
    rw [hp, hd] at hl
    cases hl

theorem shrink (h : ClosedQueue s) (hq : s'.workers.items ⊆ s.workers.items)
    (hf : s'.past.finished = s.past.finished) (hd : s'.past.drained = s.past.drained) :
    ClosedQueue s' where
  unfinished v hv := hf ▸ h.unfinished v (hq hv)
  drained l hl := by
    obtain ⟨hnil, hcount⟩ := h.drained l (hd ▸ hl)
    exact ⟨List.eq_nil_of_subset_nil (hnil ▸ hq), by rwa [hf]⟩

end ClosedQueue

namespace Run
variable {o : Options} {G : Guard} {x : Config}

/-- The reset finishes every queued worker for the first time. -/
theorem closedQueue_reset (h : Run o G x) (hq : ClosedQueue x.shared) (i : ℕ) :
    ClosedQueue (Release.reset i x.shared) where
  unfinished := by simp [Release.reset_items]
  drained l hl := by
    refine ⟨Release.reset_items i _, fun w hw => ?_⟩
    simp only [Release.reset_past] at hl ⊢
    split_ifs at hl with hcl
    · cases hl
      have hone : x.shared.workers.items.count w = 1 := by
        rw [h.queue_nodup.count, if_pos hw]
      have hzero : x.shared.past.finished.count w = 0 :=
        List.count_eq_zero.mpr (hq.unfinished w hw)
      rw [List.count_append, List.count_reverse, hone, hzero]
    · obtain ⟨hnil, hcount⟩ := hq.drained l hl
      simpa [hnil] using hcount w hw

/-- The scavenger finishes a worker that is neither queued nor was drained. -/
theorem closedQueue_finish (h : Run o G x) (hq : ClosedQueue x.shared) {i : ℕ} {t : Thread}
    {w : ℕ} (ht : t ∈ x.threads) (hthread : ClosedThread x.shared i t) (hw : w ∈ t.stale) :
    ClosedQueue (x.shared.finish w) where
  unfinished v hv hin := by
    rcases List.mem_cons.mp hin with rfl | hin
    · exact h.not_queued_of_holds ht (Thread.holds_of_stale hw) hv
    · exact hq.unfinished v hv hin
  drained l hl := by
    refine ⟨(hq.drained l hl).1, fun v hv => ?_⟩
    have hne : w ≠ v := fun he => hthread.stale l hl v hv (he ▸ hw)
    exact (List.count_cons_of_ne hne).trans ((hq.drained l hl).2 v hv)

end Run

/-- A step of a closed pool keeps its queue in order, given what is known of the
stepping thread. -/
theorem Run.closedQueue_step {o : Options} {G : Guard} {x : Config} (h : Run o G x) {i : ℕ}
    {t t' : Thread} {s' : PoolCore} (ht : x.threads[i]? = some t)
    (hq : x.shared.state = .closed → ClosedQueue x.shared)
    (hv : x.shared.state = .closed → ClosedThread x.shared i t)
    (hs : QueueStep i x.shared t s' t') (hc : s'.state = .closed) : ClosedQueue s' := by
  have hmem := List.mem_of_getElem? ht
  cases hs with
  | exchange hp =>
      subst hp
      exact ⟨by simp, by simp⟩
  | reopen hp => cases (congrArg PoolCore.state hp).symm.trans hc
  | reset hl hp =>
      subst hp
      rw [Release.reset_state] at hc
      exact h.closedQueue_reset (hq hc) i
  | finish hp ht =>
      subst hp ht
      exact h.closedQueue_finish (hq hc) hmem (hv hc) List.mem_cons_self
  | insert hi hp ht =>
      subst ht
      rw [hp.1] at hc
      obtain ⟨hw, hnone⟩ := (hv hc).inserting _ rfl
      exact (hq hc).insert hi hp.2 hw hnone
  | refresh hperm hp =>
      rw [hp.1] at hc
      exact (hq hc).shrink (fun v hv => hperm.mem_iff.mpr (List.mem_append_right _ hv))
        (by rw [hp.2]) (by rw [hp.2])
  | quiet hsub hp =>
      rw [hp.1] at hc
      exact (hq hc).shrink hsub hp.2.1 hp.2.2.1

/-- And it keeps what is known of the stepping thread. -/
theorem QueueStep.closedThread {i : ℕ} {s s' : PoolCore} {t t' : Thread}
    (hs : QueueStep i s t s' t') (hq : s.state = .closed → ClosedQueue s)
    (hv : s.state = .closed → ClosedThread s i t) (hc : s'.state = .closed) :
    ClosedThread s' i t' := by
  cases hs with
  | exchange hp ho hclosing =>
      subst hp
      refine ⟨by simp, by simp, fun _ => Thread.started_of_closing hclosing, ?_⟩
      intro _ hn
      cases hclosing.symm.trans hn
  | reopen hp => cases (congrArg PoolCore.state hp).symm.trans hc
  | reset hl hp ht' =>
      subst hp ht'
      refine ⟨fun _ h => (by cases h), fun _ _ _ _ => List.not_mem_nil, fun _ => rfl, ?_⟩
      intro hcl _
      simp only [Release.reset_past] at hcl ⊢
      exact ⟨_, if_pos hcl⟩
  | finish hp ht' ht'' =>
      subst hp ht' ht''
      have hthread := hv hc
      exact ⟨fun _ h => (by cases h),
        fun l hl v hv hin => hthread.stale l hl v hv (List.mem_cons_of_mem _ hin),
        fun _ => rfl, fun hcl _ => hthread.reset hcl rfl⟩
  | insert hi hp ht' ht'' =>
      subst ht' ht''
      rw [hp.1] at hc
      refine ⟨fun _ h => (by cases h), fun _ _ _ _ => List.not_mem_nil, fun _ => rfl, ?_⟩
      rw [hp.2]
      exact fun hcl _ => (hv hc).reset hcl rfl
  | refresh hperm hp ht' ht'' =>
      subst ht' ht''
      rw [hp.1] at hc
      refine ⟨fun _ h => (by cases h), fun l hl v _ hv => ?_, fun _ => rfl, ?_⟩
      · -- A drained queue is empty, so nothing was stale.
        rw [hp.2] at hl
        rw [((hq hc).drained l hl).1] at hperm
        rw [Thread.stale, (List.append_eq_nil_iff.mp hperm.nil_eq.symm).1] at hv
        cases hv
      · rw [hp.2]
        exact fun hcl _ => (hv hc).reset hcl rfl
  | quiet hsub hp hins hst hb hcl =>
      obtain ⟨hstate, _, hd, hclo⟩ := hp
      rw [hstate] at hc
      have hthread := hv hc
      refine ⟨fun w hw => ?_, ?_, ?_, ?_⟩
      · rcases hins with hins | ho
        · cases hins.symm.trans hw
        · cases ho.symm.trans hc
      · rw [hst]
        exact fun _ _ _ _ => List.not_mem_nil
      · rw [hclo]
        intro hi
        by_contra hbefore
        have := hthread.started hi
        simp [hb (by simpa using hbefore)] at this
      · rw [hclo, hd]
        exact fun hi hn => hthread.reset hi (hcl hn)

/-- The same for the other threads. -/
theorem Run.closedThread_other {o : Options} {G : Guard} {x : Config} (h : Run o G x) {i j : ℕ}
    {t t' u : Thread} {s' : PoolCore} (ht : x.threads[i]? = some t) (hj : j ≠ i)
    (hu : x.threads[j]? = some u) (hv : x.shared.state = .closed → ClosedThread x.shared j u)
    (hs : QueueStep i x.shared t s' t') (hc : s'.state = .closed) : ClosedThread s' j u := by
  have hmem := List.mem_of_getElem? hu
  cases hs with
  | exchange hp ho hclosing =>
      subst hp
      refine ⟨by simp, by simp, ?_, ?_⟩
      · intro hcj
        cases hcj
        exact (hj rfl).elim
      · intro hcj
        cases hcj
        exact (hj rfl).elim
  | reopen hp => cases (congrArg PoolCore.state hp).symm.trans hc
  | reset hl hp ht' =>
      subst hp ht'
      rw [Release.reset_state] at hc
      have hthread := hv hc
      refine ⟨fun w hw => ?_, ?_, ?_, ?_⟩
      · have hlock := h.locked_of_holds hmem (Thread.holdsLock_of_inserting hw)
        cases hl.symm.trans hlock
      · simp only [Release.reset_past]
        intro l hl' w hw hst
        split_ifs at hl' with hcl
        · cases hl'
          exact h.not_queued_of_holds hmem (Thread.holds_of_stale hst) hw
        · exact hthread.stale l hl' w hw hst
      · simpa only [Release.reset_past] using hthread.started
      · simp only [Release.reset_past]
        intro hcl hn
        obtain ⟨l, hl'⟩ := hthread.reset hcl hn
        split_ifs
        · exact ⟨_, rfl⟩
        · exact ⟨l, hl'⟩
  | @finish c w stale b hp ht' ht'' =>
      subst hp ht' ht''
      have hthread := hv hc
      refine ⟨fun v hv => ⟨fun hin => ?_, (hthread.inserting v hv).2⟩, hthread.stale,
        hthread.started, hthread.reset⟩
      rcases List.mem_cons.mp hin with rfl | hin
      · have hheld : 1 ≤ u.holds v := (Thread.holds_of_inserting hv).ge
        exact hj (h.holder_eq hu ht hheld (Thread.holds_of_stale (.head _)))
      · exact (hthread.inserting v hv).1 hin
  | insert _ hp =>
      exact (hv (hp.1 ▸ hc)).congr (by rw [hp.2]) (by rw [hp.2]) (by rw [hp.2])
  | refresh _ hp =>
      exact (hv (hp.1 ▸ hc)).congr (by rw [hp.2]) (by rw [hp.2]) (by rw [hp.2])
  | quiet _ hp => exact (hv (hp.1 ▸ hc)).congr hp.2.1 hp.2.2.1 hp.2.2.2

theorem Run.closed {o : Options} {G : Guard} {x : Config} (h : Run o G x) :
    (x.shared.state = .closed → ClosedQueue x.shared) ∧
      ∀ (i : ℕ) t, x.threads[i]? = some t →
        x.shared.state = .closed → ClosedThread x.shared i t := by
  refine Run.invariant_threads (J := fun s => s.state = .closed → ClosedQueue s)
    (φ := fun s i t => s.state = .closed → ClosedThread s i t) ?_ ?_ ?_ h
  · intro y hy
    exact ⟨fun hc => (by cases hy.state.symm.trans hc),
      fun _ _ _ hc => (by cases hy.state.symm.trans hc)⟩
  · intro y c hr _ _ _
    have hnew : y.shared.past.closer ≠ some y.threads.length := fun hcl =>
      lt_irrefl _ (hr.closer_lt _ hcl)
    cases c <;> exact .of_not_closer rfl rfl hnew
  · intro y i a t s' t' new hr hq hv _ ht hs
    have hqs := hs.queueStep
    refine ⟨hr.closedQueue_step ht hq (hv i t ht) hqs,
      hqs.closedThread hq (hv i t ht), fun u hu j hj hc => ?_,
      fun j u hj hu hc => hr.closedThread_other ht hj hu (hv j u hu) hqs hc⟩
    have hnew : s'.past.closer ≠ some j := by
      intro hcl
      rcases hqs.closer with h | h
      · have := hr.closer_lt j (h ▸ hcl)
        omega
      · have := (List.getElem?_eq_some_iff.mp ht).1
        cases h.symm.trans hcl
        omega
    rcases hs.new_cases hu with ⟨w, rfl⟩ | rfl | rfl <;> exact .of_not_closer rfl rfl hnew

/-- Once the release that made the latest exchange has made its reset, a closed
pool has no parked worker, no thread is about to park one, and every worker that
was parked at that reset has been sent exactly one `Finish`. -/
theorem Run.parks_none {o : Options} {G : Guard} {x : Config} (h : Run o G x) {i : ℕ}
    {t : Release} (hc : x.shared.state = .closed) (hi : x.shared.past.closer = some i)
    (ht : x.threads[i]? = some (.release t)) (hreset : t.pc.closing = false) :
    x.shared.workers.items = [] ∧ (∀ u ∈ x.threads, u.inserting = none) ∧
      ∃ l, x.shared.past.drained = some l ∧ ∀ w ∈ l, x.shared.past.finished.count w = 1 := by
  obtain ⟨hq, hv⟩ := h.closed
  obtain ⟨l, hl⟩ := (hv i _ ht hc).reset hi hreset
  refine ⟨((hq hc).drained l hl).1, fun u hu => ?_, l, hl, ((hq hc).drained l hl).2⟩
  obtain ⟨j, hj⟩ := List.mem_iff_getElem?.mp hu
  cases hins : u.inserting with
  | none => rfl
  | some w => cases ((hv j u hj hc).inserting w hins).2.symm.trans hl

/-- The worker of a small pool is parked when the pool is closed and reset. -/
def resetPool : Config :=
  ((program smallOptions).run anyMove smallPool
    (.call (.submit false) :: steps 2 7 ++ steps 3 8 ++ .call .release :: steps 4 5)).get
      (by decide)

end AntsPool
