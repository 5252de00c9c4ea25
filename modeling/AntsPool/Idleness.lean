import AntsPool.Builds
import AntsPool.Epilogue
import AntsPool.Eviction

/-!
# How long an evicted worker has been idle

The scavenger compares the wall clock with the stamp of a worker, and the stamp is a
reading of the pool's own clock, which another thread sets. The time at which a worker
was put into the queue is in no field of the pool; it is read off the history of the run.
By as much as the wall clock moves on between the reading and the insertion, by so much
can an eviction come too early.
-/
namespace AntsPool
open Interleaving StampOrder

section
variable {Q : Type} [IdleQueue Q]

/-- When worker `w` was last put into the idle queue, by the wall clock. -/
def queuedAt (w : ℕ) : List (Event (PoolCore Q) Thread Call Env) → Option ℤ
  | [] => none
  | e :: h =>
      if IdleQueue.items e.after.shared.workers =
          IdleQueue.items e.before.shared.workers ++ [w] then some e.before.shared.clock
      else queuedAt w h

/-- Every worker of `stale` was put in no later than `duration` ago. -/
def idleSince (h : List (Event (PoolCore Q) Thread Call Env)) (x : Config Q) (duration : ℤ)
    (stale : List ℕ) : Prop :=
  ∀ w ∈ stale, ∃ p ∈ queuedAt w h, p ≤ x.shared.clock - duration

/-- Between the reading that a worker was stamped with and its insertion the wall clock has
moved on by `lag` at most. -/
def insertedWithin (lag : ℤ) (x : Config Q) : Move → Prop
  | .call _ => True
  | .step i _ => ∀ t ∈ x.threads[i]?, ∀ w ∈ t.inserting, x.shared.clock - x.shared.stamp w ≤ lag

/-- The wall clock does not go back, and no insertion lags by more than `lag`. -/
def timely (lag : ℤ) (x : Config Q) (m : Move) : Prop := clockForward x m ∧ insertedWithin lag x m

instance (lag : ℤ) (x : Config Q) : (m : Move) → Decidable (timely lag x m)
  | .call _ => inferInstanceAs (Decidable (_ ∧ True))
  | .step i _ => inferInstanceAs (Decidable (_ ∧ (∀ t ∈ x.threads[i]?, ∀ w ∈ t.inserting,
      x.shared.clock - x.shared.stamp w ≤ lag)))

/-- A tick that ends with workers to finish has made the refresh. -/
theorem refreshed_of_fired {o : Options} {x y : Config Q} {i c : ℕ} {a : Env} {stale : List ℕ}
    {dormant : Bool} (ht : x.threads[i]? = some (.purge (.refresh c)))
    (hf : (program o Q).fire x (.step i a) = some y)
    (hy : y.threads[i]? = some (.purge (.finish c stale dormant))) :
    ∃ q, x.shared.refreshed o = some (stale, q) := by
  obtain ⟨t, r, ht', hn, rfl⟩ := Program.fire_step _ hf
  obtain rfl := Option.some.inj (ht.symm.trans ht')
  rw [Config.getElem?_after_self ht] at hy
  simp only [program, Thread.next, Purge.next] at hn
  split_ifs at hn
  · cases hn
  · cases hr : IdleQueue.refresh x.shared.stamp x.shared.clock o.expiryDuration
        x.shared.workers with
    | none =>
        rw [hr] at hn
        cases hn
        cases hy
    | some r =>
        rw [hr] at hn
        cases hn
        cases hy
        exact ⟨r.2, hr⟩

/-- A refresh that does not panic hands on what it took out. -/
theorem fired_of_refreshed {o : Options} {x y : Config Q} {i c : ℕ} {a : Env}
    {r : List ℕ × Q} (ht : x.threads[i]? = some (.purge (.refresh c)))
    (hf : (program o Q).fire x (.step i a) = some y) (hr : x.shared.refreshed o = some r) :
    ∃ dormant, y.threads[i]? = some (.purge (.finish c r.1 dormant)) := by
  obtain ⟨t, s, ht', hn, rfl⟩ := Program.fire_step _ hf
  obtain rfl := Option.some.inj (ht.symm.trans ht')
  rw [Config.getElem?_after_self ht]
  unfold PoolCore.refreshed at hr
  simp only [program, Thread.next, Purge.next, hr] at hn
  split_ifs at hn
  · cases hn
  · cases hn
    exact ⟨_, rfl⟩

end

theorem queuedAt_insert {w : ℕ} {e : PoolEvent} {h : List PoolEvent}
    (he : e.after.shared.workers.items = e.before.shared.workers.items ++ [w]) :
    queuedAt w (e :: h) = some e.before.shared.clock :=
  if_pos he

theorem queuedAt_other {v w : ℕ} (hvw : v ≠ w) {e : PoolEvent} {h : List PoolEvent}
    (he : e.after.shared.workers.items = e.before.shared.workers.items ++ [w]) :
    queuedAt v (e :: h) = queuedAt v h := by
  refine if_neg fun hv => hvw ?_
  exact List.singleton_inj.mp (List.append_cancel_left (hv.symm.trans he))

theorem queuedAt_sublist (w : ℕ) {e : PoolEvent} {h : List PoolEvent}
    (he : e.after.shared.workers.items.Sublist e.before.shared.workers.items) :
    queuedAt w (e :: h) = queuedAt w h := by
  refine if_neg fun hw => ?_
  have hlen := he.length_le
  simp only [IdleQueue.items_eq] at hw
  rw [hw, List.length_append, List.length_singleton] at hlen
  omega

/-- Every parked worker was put in at a known time, and the queue is in the order of
these times. -/
structure QueuedInOrder (h : List PoolEvent) (x : Config) : Prop where
  known : ∀ w ∈ x.shared.workers.items, ∃ p ∈ queuedAt w h, p ≤ x.shared.clock
  order : x.shared.workers.items.Pairwise fun v w => ∀ p ∈ queuedAt v h, ∀ q ∈ queuedAt w h, p ≤ q

namespace QueuedInOrder
variable {h : List PoolEvent} {x y : Config} {m : Interleaving.Move Call Env}

/-- Workers leave, and the clock goes on. -/
theorem sublist (hx : QueuedInOrder h x)
    (hsub : y.shared.workers.items.Sublist x.shared.workers.items)
    (hclock : x.shared.clock ≤ y.shared.clock) : QueuedInOrder (⟨x, m, y⟩ :: h) y where
  known w hw := by
    rw [queuedAt_sublist w hsub]
    obtain ⟨p, hp, hle⟩ := hx.known w (hsub.subset hw)
    exact ⟨p, hp, hle.trans hclock⟩
  order := by
    refine (hx.order.sublist hsub).imp fun {v w} hvw => ?_
    rw [queuedAt_sublist v hsub, queuedAt_sublist w hsub]
    exact hvw

/-- A worker is put in behind all that are parked. -/
theorem insert (hx : QueuedInOrder h x) {w : ℕ}
    (hitems : y.shared.workers.items = x.shared.workers.items ++ [w])
    (hw : w ∉ x.shared.workers.items) (hclock : x.shared.clock ≤ y.shared.clock) :
    QueuedInOrder (⟨x, m, y⟩ :: h) y where
  known v hv := by
    rw [hitems, List.mem_append, List.mem_singleton] at hv
    rcases hv with hv | rfl
    · rw [queuedAt_other (ne_of_mem_of_not_mem hv hw) hitems]
      obtain ⟨p, hp, hle⟩ := hx.known v hv
      exact ⟨p, hp, hle.trans hclock⟩
    · exact ⟨_, queuedAt_insert hitems, hclock⟩
  order := by
    rw [hitems]
    refine List.pairwise_append.mpr ⟨?_, List.pairwise_singleton _ w, fun v hv u hu p hp q hq => ?_⟩
    · refine hx.order.imp_of_mem fun {v u} hv hu hvu => ?_
      rw [queuedAt_other (ne_of_mem_of_not_mem hv hw) hitems,
        queuedAt_other (ne_of_mem_of_not_mem hu hw) hitems]
      exact hvu
    · obtain rfl := List.mem_singleton.mp hu
      rw [queuedAt_other (ne_of_mem_of_not_mem hv hw) hitems] at hp
      rw [queuedAt_insert hitems] at hq
      obtain ⟨p', hp', hle⟩ := hx.known v hv
      cases hp.symm.trans hp'
      cases hq
      exact hle

end QueuedInOrder

theorem Traced.queuedInOrder {o : Options} {G : Guard} (hG : ∀ x m, G x m → clockForward x m)
    {h : List PoolEvent} {x : Config} (hx : Traced o G h x) : QueuedInOrder h x := by
  refine Program.Trace.invariant (J := QueuedInOrder) ?_ ?_ ?_ hx
  · intro y hy
    refine ⟨fun w hw => ?_, ?_⟩
    · rw [hy.fresh.idle] at hw
      cases hw
    · rw [hy.fresh.idle]
      exact .nil
  · intro h y c _ hy _
    exact hy.sublist (List.Sublist.refl _) le_rfl
  · intro h y i a t r hy hq hg ht hn
    have hclock := clock_le_of_next (hG _ _ hg) hn
    have hs := program_step hn
    rcases hs.items_cases with ⟨w, b, rfl, hitems⟩ | hsub
    · have hrun : Run o G y := hy.reach
      have hholds : 1 ≤ (Thread.work ⟨w, b, .insert⟩).holds w := by
        simp [Thread.holds, WorkerPc.owns]
      exact hq.insert hitems (hrun.not_queued_of_holds (List.mem_of_getElem? ht) hholds) hclock
    · exact hq.sublist hsub hclock

/-- A parked worker keeps the stamp that it came with. -/
theorem Traced.queuedAt_le {o : Options} {lag : ℤ} {h : List PoolEvent} {x : Config}
    (hx : Traced o (timely lag) h x) : ∀ w ∈ x.shared.workers.items, ∀ p ∈ queuedAt w h,
      p ≤ x.shared.stamp w + lag := by
  refine Program.Trace.invariant (J := fun h x => ∀ w ∈ x.shared.workers.items,
    ∀ p ∈ queuedAt w h, p ≤ x.shared.stamp w + lag) ?_ ?_ ?_ hx
  · intro y hy w hw
    rw [hy.fresh.idle] at hw
    cases hw
  · intro h y c _ hy _ w hw p hp
    rw [queuedAt_sublist w (List.Sublist.refl _)] at hp
    exact hy w hw p hp
  · rintro h y i a t ⟨s', t', new⟩ hy hle hg ht hn v hv p hp
    have hs : Thread.Step o i y.shared t s' t' new := program_step hn
    have hrun : Run o (timely lag) y := hy.reach
    change p ≤ s'.stamp v + lag
    rcases hs.items_cases with ⟨w, b, rfl, hitems⟩ | hsub
    · have hnew : s'.stamp w = y.shared.stamp w := hrun.stamp_of_stamped ht hs ht rfl
      change v ∈ s'.workers.items at hv
      rw [hitems] at hv
      by_cases hvw : v = w
      · subst hvw
        rw [queuedAt_insert hitems] at hp
        cases hp
        have hlag : y.shared.clock - y.shared.stamp v ≤ lag := hg.2 _ ht v rfl
        rw [hnew]
        exact sub_le_iff_le_add'.mp hlag
      · have hv := (List.mem_append.mp hv).resolve_right (by simpa using hvw)
        rw [queuedAt_other hvw hitems] at hp
        rw [hrun.stamp_of_parked ht hs hv]
        exact hle v hv p hp
    · have hv := hsub.subset hv
      rw [queuedAt_sublist v hsub] at hp
      rw [hrun.stamp_of_parked ht hs hv]
      exact hle v hv p hp

/-! ## What a refresh evicts -/

/-- The time at which a worker was put in, for the workers that are parked. -/
def since (h : List PoolEvent) (w : ℕ) : ℤ := (queuedAt w h).getD 0

theorem since_eq {h : List PoolEvent} {w : ℕ} {p : ℤ} (hp : p ∈ queuedAt w h) : since h w = p := by
  rw [since, Option.mem_def.mp hp, Option.getD_some]

namespace QueuedInOrder
variable {h : List PoolEvent} {x : Config}

theorem since_sorted (hx : QueuedInOrder h x) :
    x.shared.workers.items.Pairwise fun v w => since h v ≤ since h w := by
  refine hx.order.imp_of_mem fun {v w} hv hw hvw => ?_
  obtain ⟨p, hp, _⟩ := hx.known v hv
  obtain ⟨q, hq, _⟩ := hx.known w hw
  rw [since_eq hp, since_eq hq]
  exact hvw p hp q hq

/-- The workers put in after the cut-off are the last ones of the queue. All of them are
stamped after it, but for the lag, so the search ends before them. -/
theorem idleSince_refresh (hx : QueuedInOrder h x) {duration lag : ℤ}
    (hlag : ∀ w ∈ x.shared.workers.items, ∀ p ∈ queuedAt w h, p ≤ x.shared.stamp w + lag) :
    idleSince h x (duration - lag)
      (x.shared.workers.refresh x.shared.stamp x.shared.clock duration).1 := by
  have hlate : ∀ w ∈ x.shared.workers.items.drop
      (upTo (since h) (x.shared.clock - (duration - lag)) x.shared.workers.items),
      x.shared.clock - duration < x.shared.stamp w := by
    intro w hw
    rw [← filter_gt_eq_drop hx.since_sorted, List.mem_filter, decide_eq_true_eq] at hw
    obtain ⟨p, hp, _⟩ := hx.known w hw.1
    have hle := hlag w hw.1 p hp
    have hlt := since_eq hp ▸ hw.2
    omega
  obtain ⟨m, hm, hperm⟩ := x.shared.workers.refresh_before hlate
  intro w hw
  have htake := (List.take_subset_take_left _ hm) (hperm.mem_iff.mp hw)
  rw [← filter_le_eq_take hx.since_sorted, List.mem_filter, decide_eq_true_eq] at htake
  obtain ⟨p, hp, _⟩ := hx.known w htake.1
  exact ⟨p, hp, since_eq hp ▸ htake.2⟩

end QueuedInOrder

/-- The times of insertion are the same in the pool of a build. -/
theorem queuedAt_map {Q Q' : Type} [IdleQueue Q] [IdleQueue Q'] {f : Q → Q'}
    (hf : IdleQueue.Alike f) (w : ℕ) (h : List (Event (PoolCore Q) Thread Call Env)) :
    queuedAt w (h.map (Event.mapShared (PoolCore.map f))) = queuedAt w h := by
  induction h with
  | nil => rfl
  | cons e h ih =>
      simp only [List.map_cons, queuedAt, ih, Event.mapShared, Config.mapShared,
        PoolCore.map_workers, hf.items]
      rfl

/-- In a build where the ring is refreshed alike no eviction comes too early by more than the
insertions lag. -/
theorem idleSince_of_timely {b : Build} {size : ℤ} {o : Options} (hsafe : safeBuild b size o)
    {lag : ℤ} {h : List (Event (PoolCore (BuiltQueue b)) Thread Call Env)}
    {x y : Config (BuiltQueue b)} (hx : BuildTrace b size o (timely lag) h x) {i c : ℕ} {a : Env}
    (ht : x.threads[i]? = some (.purge (.refresh c)))
    (hf : (program o (BuiltQueue b)).fire x (.step i a) = some y) {stale : List ℕ}
    {dormant : Bool} (hy : y.threads[i]? = some (.purge (.finish c stale dormant))) :
    idleSince h x (o.expiryDuration - lag) stale := by
  obtain ⟨q, hq⟩ := refreshed_of_fired ht hf hy
  obtain ⟨h', z, hz, hagree, rfl, rfl⟩ := BuildTrace.exists_trace (G := timely lag) hsafe
    (fun z m hg => by cases m <;> exact hg) hx
  have hz : Traced o (timely lag) h' z := hz.mono fun _ => Made.starts
  have hrefresh := hagree.refreshesAlike o
  unfold PoolCore.refreshesAlike at hrefresh
  obtain ⟨r, hr, hstale⟩ := Option.map_eq_some_iff.mp (hrefresh.symm.trans hq)
  obtain ⟨rfl, -⟩ := Prod.mk.inj hstale
  have hidle : idleSince h' z (o.expiryDuration - lag) (z.shared.workers.refresh z.shared.stamp
      z.shared.clock o.expiryDuration).1 :=
    (hz.queuedInOrder fun _ _ hg => hg.1).idleSince_refresh hz.queuedAt_le
  rw [WorkerQueue.refresh_of_checked hr] at hidle
  intro w hw
  rw [queuedAt_map WorkerQueue.built_alike]
  exact hidle w hw

/-- With a wall clock that does not go back, a refresh evicts only workers that have been in
the queue for the whole expiry, in every run in which the clock does not move on between
the reading that a worker is stamped with and its insertion. -/
theorem evicted_idle_for_expiry {b : Build} {size : ℤ} {o : Options} (hsafe : safeBuild b size o)
    {h : List (Event (PoolCore (BuiltQueue b)) Thread Call Env)} {x y : Config (BuiltQueue b)}
    (hx : BuildTrace b size o (timely 0) h x) {i c : ℕ} {a : Env}
    (ht : x.threads[i]? = some (.purge (.refresh c)))
    (hf : (program o (BuiltQueue b)).fire x (.step i a) = some y) {stale : List ℕ}
    {dormant : Bool} (hy : y.threads[i]? = some (.purge (.finish c stale dormant))) :
    idleSince h x o.expiryDuration stale := by
  have hidle := idleSince_of_timely hsafe hx ht hf hy
  rwa [sub_zero] at hidle

/-- A pool with one slot and a scavenger that evicts after two units of time. -/
def expiryOptions : Options := { expiryDuration := 2 }

def expiryPool : Config (BuiltQueue .wrapping) :=
  (((PoolCore.new 1 expiryOptions 0 (BuiltQueue .wrapping)).get rfl).toOption.get rfl).2

theorem expiryPool_made : Made 1 expiryOptions expiryPool := ⟨expiryOptions, 0, rfl⟩

/-- A worker has taken the payload of its first caller. -/
def expiryMoves : List Move := .call (.submit false) :: steps 3 7 ++ steps 4 1

/-- The worker parks at time 0, and the scavenger comes by at time 10. -/
theorem evicted_idle_for_expiry_parked :
    ∃ h x y, BuildTrace .wrapping 1 expiryOptions (timely 0) h x ∧
      (program expiryOptions (BuiltQueue .wrapping)).fire x (.step 1 .ok) = some y ∧
      x.shared.clock = 10 ∧ queuedAt 0 h = some 0 ∧
      ∃ stale dormant, y.threads[1]? = some (.purge (.finish 1 stale dormant)) ∧
      idleSince h x 2 stale := by
  obtain ⟨h, x, hx, hφ⟩ := Program.Trace.exists_of_trace
    (P := program expiryOptions (BuiltQueue .wrapping)) (I := Made 1 expiryOptions)
    (G := timely 0) (x := expiryPool)
    (m := expiryMoves ++ steps 4 7 ++ .step 0 (.time 10) :: steps 1 3)
    (φ := fun h x => decide (x.threads[1]? = some (Thread.purge (.refresh 1)) ∧
      ((program expiryOptions (BuiltQueue .wrapping)).fire x (.step 1 .ok)).isSome = true ∧
      (x.shared.refreshed expiryOptions).isSome = true ∧ x.shared.clock = 10 ∧
      queuedAt 0 h = some 0))
    expiryPool_made (by decide)
  obtain ⟨ht, hfire, hrefreshed, hclock, hqueued⟩ := of_decide_eq_true hφ
  obtain ⟨y, hf⟩ := Option.isSome_iff_exists.mp hfire
  obtain ⟨r, hr⟩ := Option.isSome_iff_exists.mp hrefreshed
  obtain ⟨dormant, hy⟩ := fired_of_refreshed ht hf hr
  exact ⟨h, x, y, hx, hf, hclock, hqueued, r.1, dormant, hy,
    evicted_idle_for_expiry (.inr (.inl rfl)) hx ht hf hy⟩

/-- The pool's clock is still at 0 when the worker parks at time 10, and the scavenger
evicts it at once. -/
theorem evicted_at_once :
    ∃ h x y, BuildTrace .wrapping 1 expiryOptions clockForward h x ∧
      (program expiryOptions (BuiltQueue .wrapping)).fire x (.step 1 .ok) = some y ∧
      x.shared.clock = 10 ∧ queuedAt 0 h = some 10 ∧
      (∃ dormant, y.threads[1]? = some (.purge (.finish 1 [0] dormant))) ∧
      ¬ idleSince h x 2 [0] := by
  obtain ⟨h, x, hx, hφ⟩ := Program.Trace.exists_of_trace
    (P := program expiryOptions (BuiltQueue .wrapping)) (I := Made 1 expiryOptions)
    (G := clockForward) (x := expiryPool)
    (m := expiryMoves ++ .step 0 (.time 10) :: steps 4 7 ++ steps 1 3)
    (φ := fun h x => decide (x.threads[1]? = some (Thread.purge (.refresh 1)) ∧
      ((program expiryOptions (BuiltQueue .wrapping)).fire x (.step 1 .ok)).isSome = true ∧
      x.shared.clock = 10 ∧ queuedAt 0 h = some 10 ∧ x.shared.workers = .stack ⟨[0]⟩ ∧
      x.shared.stamp 0 = 0))
    expiryPool_made (by decide)
  obtain ⟨ht, hfire, hclock, hqueued, hworkers, hstamp⟩ := of_decide_eq_true hφ
  obtain ⟨y, hf⟩ := Option.isSome_iff_exists.mp hfire
  obtain ⟨q, hr⟩ : ∃ q, x.shared.refreshed expiryOptions = some ([0], q) := by
    have hdue : upTo x.shared.stamp (10 - 2) [0] = 1 := by simp [upTo, hstamp]
    have hout : (WorkerStack.refresh x.shared.stamp 10 2 ⟨[0]⟩).1 = [0] := by
      rw [(WorkerStack.refresh_eq (List.pairwise_singleton _ 0) 10 2).1, hdue]
      rfl
    refine ⟨.stack (WorkerStack.refresh x.shared.stamp 10 2 ⟨[0]⟩).2, ?_⟩
    unfold PoolCore.refreshed
    rw [hworkers, hclock]
    exact congrArg (fun l => some (l, _)) hout
  refine ⟨h, x, y, hx, hf, hclock, hqueued, fired_of_refreshed ht hf hr, ?_⟩
  intro hidle
  obtain ⟨p, hp, hle⟩ := hidle 0 (List.mem_singleton.mpr rfl)
  cases hqueued.symm.trans hp
  omega

/-- No other circumstance would do: a worker put in after the time of its stamp is evicted too
early by a refresh that comes at the right moment. -/
theorem evicted_early_of_lag {h : List PoolEvent} {x : Config} (hsorted : x.shared.sorted)
    {w : ℕ} (hw : w ∈ x.shared.workers.items) {p : ℤ} (hp : p ∈ queuedAt w h)
    (hlag : x.shared.stamp w < p) {duration : ℤ} (hpos : 0 < duration) :
    ∃ now, p ≤ now ∧ w ∈ (x.shared.workers.refresh x.shared.stamp now duration).1 ∧
      ∀ q ∈ queuedAt w h, now - duration < q := by
  refine ⟨max p (x.shared.stamp w + duration), le_max_left _ _, ?_, fun q hq => ?_⟩
  · have hout :=
      WorkerQueue.refresh_of_sorted hsorted (max p (x.shared.stamp w + duration)) duration
    refine hout.mem_iff.mpr (List.mem_filter.mpr ⟨hw, decide_eq_true ?_⟩)
    omega
  · cases hp.symm.trans hq
    omega

end AntsPool
