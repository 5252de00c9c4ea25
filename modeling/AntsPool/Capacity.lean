import AntsPool.Accounts

/-!
# The capacity bounds the number of running workers

A caller may spawn on a capacity it read earlier, so the bound is against the
capacities the pool has had. Between the test and the spawn the caller holds the
lock, and only holders of the lock raise `running`.
-/
namespace AntsPool
open Interleaving

/-- A capacity is stored by `tune` only. -/
theorem Thread.Step.capacity_cases {o : Options} {i : ℕ} {s s' : PoolCore} {t t' : Thread}
    {new : List Thread} (h : Thread.Step o i s t s' t' new) :
    (∃ size c, t = .tune (.store size c) ∧ s'.capacity = size ∧
      s'.past.capacities = size :: s.past.capacities) ∨
    (s'.capacity = s.capacity ∧ s'.past.capacities = s.past.capacities) := by
  cases h with
  | tune h =>
      cases h with
      | shrink | growOne | grow => exact .inl ⟨_, _, rfl, rfl, rfl⟩
      | _ => exact .inr ⟨rfl, rfl⟩
  | release h =>
      cases h with
      | reset =>
          obtain ⟨_, _, hr, hc, _⟩ := Release.reset_frame i s
          exact .inr ⟨by rw [hr], by rw [hr, hc]⟩
      | _ => exact .inr ⟨rfl, rfl⟩
  | submit h => cases h <;> exact .inr ⟨rfl, rfl⟩
  | work h => cases h <;> exact .inr ⟨rfl, rfl⟩
  | purge h => cases h <;> exact .inr ⟨rfl, rfl⟩
  | ticktock h => cases h <;> exact .inr ⟨rfl, rfl⟩
  | reboot h => cases h <;> exact .inr ⟨rfl, rfl⟩
  | clock => exact .inr ⟨rfl, rfl⟩

/-- Only a spawn raises `running`, and only the decrement of an epilogue lowers it. -/
theorem Thread.Step.running_cases {o : Options} {i : ℕ} {s s' : PoolCore} {t t' : Thread}
    {new : List Thread} (h : Thread.Step o i s t s' t' new) :
    (∃ p b w, t = .submit ⟨p, b, .run w⟩ ∧ s'.running = s.running + 1) ∨
    (∃ w b, t = .work ⟨w, b, .exit⟩ ∧ s'.running = s.running - 1) ∨
    s'.running = s.running := by
  cases h with
  | submit h =>
      cases h with
      | run => exact .inl ⟨_, _, _, rfl, rfl⟩
      | _ => exact .inr (.inr rfl)
  | work h =>
      cases h with
      | exitLast | exitMore => exact .inr (.inl ⟨_, _, rfl, rfl⟩)
      | _ => exact .inr (.inr rfl)
  | release h =>
      cases h with
      | reset =>
          obtain ⟨_, _, hr, _⟩ := Release.reset_frame i s
          exact .inr (.inr (by rw [hr]))
      | _ => exact .inr (.inr rfl)
  | purge h => cases h <;> exact .inr (.inr rfl)
  | ticktock h => cases h <;> exact .inr (.inr rfl)
  | reboot h => cases h <;> exact .inr (.inr rfl)
  | tune h => cases h <;> exact .inr (.inr rfl)
  | clock => exact .inr (.inr rfl)

namespace PoolCore

/-- Room for another worker under some capacity the pool has had. -/
def roomy (s : PoolCore) : Prop := s.capacity = -1 ∨ ∃ k ∈ s.past.capacities, s.running < k

theorem roomy_mono {s s' : PoolCore} (hc : s'.capacity = s.capacity)
    (hcs : s'.past.capacities = s.past.capacities) (hr : s'.running ≤ s.running) (h : s.roomy) :
    s'.roomy := by
  refine h.imp (fun h => hc.trans h) fun ⟨k, hk, hlt⟩ => ⟨k, ?_, ?_⟩
  · rwa [hcs]
  · omega

/-- The capacities are all `-1` or all positive, the current one is the first, and
`running` is within one of them. -/
structure Bounded (s : PoolCore) : Prop where
  uniform : (∀ k ∈ s.past.capacities, k = -1) ∨ ∀ k ∈ s.past.capacities, 1 ≤ k
  current : s.past.capacities.head? = some s.capacity
  within : s.capacity = -1 ∨ ∃ k ∈ s.past.capacities, s.running ≤ k

theorem Bounded.current_mem {s : PoolCore} (h : s.Bounded) : s.capacity ∈ s.past.capacities :=
  List.mem_of_mem_head? h.current

theorem Bounded.capacity_pos {s : PoolCore} (h : s.Bounded) :
    s.capacity = -1 ∨ 1 ≤ s.capacity := by
  rcases h.uniform with hall | hall
  · exact .inl (hall _ h.current_mem)
  · exact .inr (hall _ h.current_mem)

theorem Bounded.unlimited {s : PoolCore} (h : s.Bounded) (hc : s.capacity = -1) :
    ¬ ∀ k ∈ s.past.capacities, 1 ≤ k := by
  intro hall
  have := hall _ h.current_mem
  omega

end PoolCore

/-- What a thread knows about the capacities: a caller about to compare holds one
of them, a caller about to spawn has found room, and a size about to be stored is
positive in a pool that is not unlimited. -/
def Thread.capacityView (s : PoolCore) : Thread → Prop
  | .submit ⟨_, _, .readRunning c⟩ => c ∈ s.past.capacities
  | .submit ⟨_, _, .spawn⟩ | .submit ⟨_, _, .run _⟩ => s.roomy
  | .tune (.store size _) => 1 ≤ size ∧ ∀ k ∈ s.past.capacities, 1 ≤ k
  | _ => True

namespace Thread

/-- Adding a worker takes room only from a caller that has the lock as well. -/
theorem capacityView_mono {s s' : PoolCore} (hc : s'.capacity = s.capacity)
    (hcs : s'.past.capacities = s.past.capacities) {u : Thread}
    (hr : s'.running ≤ s.running ∨ u.holdsLock = false) (h : u.capacityView s) :
    u.capacityView s' := by
  rcases u with ⟨p, b, pc⟩ | t | t | t | t | t | t | _
  case submit =>
    cases pc with
    | readRunning c =>
        rw [capacityView, hcs]
        exact h
    | spawn | run => exact PoolCore.roomy_mono hc hcs (hr.resolve_right nofun) h
    | _ => trivial
  case tune =>
    cases t with
    | store size c =>
        rw [capacityView, hcs]
        exact h
    | _ => trivial
  all_goals trivial

/-- Storing a size keeps what the other threads know. -/
theorem capacityView_store {s s' : PoolCore} (hb : s.Bounded) {size : ℤ}
    (hcs : s'.past.capacities = size :: s.past.capacities)
    (hr : s'.running = s.running) (hsize : 1 ≤ size) (hall : ∀ k ∈ s.past.capacities, 1 ≤ k)
    {u : Thread} (h : u.capacityView s) : u.capacityView s' := by
  rcases u with ⟨p, b, pc⟩ | t | t | t | t | t | t | _
  case submit =>
    cases pc with
    | readRunning c =>
        rw [capacityView, hcs]
        exact List.mem_cons_of_mem _ h
    | spawn | run =>
        rcases h with h | ⟨k, hk, hlt⟩
        · exact (hb.unlimited h hall).elim
        · exact .inr ⟨k, by rw [hcs]; exact List.mem_cons_of_mem _ hk, by omega⟩
    | _ => trivial
  case tune =>
    cases t with
    | store size' c =>
        refine ⟨h.1, fun k hk => ?_⟩
        rw [hcs] at hk
        rcases List.mem_cons.mp hk with rfl | hk
        · exact hsize
        · exact h.2 k hk
    | _ => trivial
  all_goals trivial

/-- What the stepping thread knows after its step. -/
theorem Step.capacityView_self {o : Options} {i : ℕ} {s s' : PoolCore} {t t' : Thread}
    {new : List Thread} (hb : s.Bounded) (hv : t.capacityView s)
    (h : Thread.Step o i s t s' t' new) : t'.capacityView s' := by
  cases h with
  | submit h =>
      cases h with
      | unlimited hc => exact .inl hc
      | bounded => exact hb.current_mem
      | room hr => exact .inr ⟨_, hv, hr⟩
      | spawnCached | spawnNew => exact hv
      | _ => trivial
  | tune h =>
      cases h with
      | readCap hu hs =>
          refine ⟨by omega, hb.uniform.resolve_left fun hall => hu (hall _ hb.current_mem)⟩
      | _ => trivial
  | work h => trivial
  | purge h => trivial
  | ticktock h => trivial
  | release h => trivial
  | reboot h => trivial
  | clock => trivial

end Thread

/-- A step keeps the bound, given what the stepping thread knows. -/
theorem PoolCore.Bounded.step {o : Options} {i : ℕ} {s s' : PoolCore} {t t' : Thread}
    {new : List Thread} (hb : s.Bounded) (hv : t.capacityView s)
    (h : Thread.Step o i s t s' t' new) : s'.Bounded := by
  rcases h.capacity_cases with ⟨size, c, rfl, hc, hcs⟩ | ⟨hc, hcs⟩
  · obtain ⟨hsize, hall⟩ := hv
    have hr : s'.running = s.running := by
      rcases h.running_cases with ⟨_, _, _, ht, _⟩ | ⟨_, _, ht, _⟩ | hr
      · cases ht
      · cases ht
      · exact hr
    refine ⟨.inr fun k hk => ?_, by rw [hcs, hc]; rfl, ?_⟩
    · rw [hcs] at hk
      rcases List.mem_cons.mp hk with rfl | hk
      · exact hsize
      · exact hall k hk
    · rcases hb.within with hcap | ⟨k, hk, hle⟩
      · exact (hb.unlimited hcap hall).elim
      · exact .inr ⟨k, by rw [hcs]; exact List.mem_cons_of_mem _ hk, by omega⟩
  · refine ⟨by rw [hcs]; exact hb.uniform, by rw [hcs, hc]; exact hb.current, ?_⟩
    rw [hc, hcs]
    rcases h.running_cases with ⟨p, b, w, rfl, hr⟩ | ⟨_, _, _, hr⟩ | hr
    · exact hv.imp id fun ⟨k, hk, hlt⟩ => ⟨k, hk, by omega⟩
    · exact hb.within.imp id fun ⟨k, hk, hle⟩ => ⟨k, hk, by omega⟩
    · exact hb.within.imp id fun ⟨k, hk, hle⟩ => ⟨k, hk, by omega⟩

/-- Whether a thread is a call of `tune`. -/
def Thread.isTune : Thread → Bool
  | .tune _ => true
  | _ => false

namespace Run
variable {o : Options} {G : Guard} {x : Config}

theorem bounded (h : Run o G x) :
    x.shared.Bounded ∧ ∀ (i : ℕ) t, x.threads[i]? = some t → t.capacityView x.shared := by
  refine Run.invariant_newborn (φ := fun s _ t => t.capacityView s) ?_ ?_ ?_ ?_ h
  · intro y hy
    refine ⟨?_, ?_, ?_⟩
    · simpa [hy.capacities] using hy.capacity
    · rw [hy.capacities]
      rfl
    · rw [hy.capacities, hy.running]
      exact hy.capacity.imp id fun h => ⟨_, List.mem_singleton.mpr rfl, by omega⟩
  · intro s i t ht
    rcases ht with (rfl | rfl | rfl) | ⟨w, rfl⟩ <;> trivial
  · intro y c _ _ _
    cases c <;> trivial
  · intro y i a t s' t' new hr hb hv _ ht hs
    refine ⟨hb.step (hv i t ht) hs, hs.capacityView_self hb (hv i t ht), fun j u hj hu => ?_⟩
    rcases hs.capacity_cases with ⟨size, c, rfl, hc, hcs⟩ | ⟨hc, hcs⟩
    · obtain ⟨hsize, hall⟩ := hv i _ ht
      refine Thread.capacityView_store hb hcs ?_ hsize hall (hv j u hu)
      rcases hs.running_cases with ⟨_, _, _, h, _⟩ | ⟨_, _, h, _⟩ | h
      · cases h
      · cases h
      · exact h
    · refine Thread.capacityView_mono hc hcs ?_ (hv j u hu)
      rcases hs.running_cases with ⟨p, b, w, rfl, hrun⟩ | ⟨_, _, _, hrun⟩ | hrun
      · -- the caller that adds a worker has the lock, so no other caller is about to
        cases hlock : u.holdsLock with
        | false => exact .inr rfl
        | true => exact (hj (hr.holder_unique hu ht hlock rfl)).elim
      · exact .inl (by omega)
      · exact .inl hrun.le

/-- Until a `tune` comes in, the capacity is the one the pool was made with. -/
theorem untuned (h : Run o G x) :
    (∃ u ∈ x.threads, u.isTune = true) ∨ x.shared.past.capacities = [x.shared.capacity] := by
  refine Run.invariant (J := fun x => (∃ u ∈ x.threads, u.isTune = true) ∨
    x.shared.past.capacities = [x.shared.capacity]) ?_ ?_ ?_ h
  · intro y hy
    exact .inr hy.capacities
  · intro y c _ hy _
    exact hy.imp (fun ⟨u, hu, htune⟩ => ⟨u, List.mem_append_left _ hu, htune⟩) id
  · intro y i a t s' t' new _ hy _ ht hs
    have hself : t.isTune = true → ∃ u ∈ (y.after i (s', t', new)).threads, u.isTune = true := by
      intro htune
      refine ⟨t', List.mem_of_getElem? (Config.getElem?_after_self ht), ?_⟩
      cases hs with
      | tune hs => rfl
      | _ => cases htune
    rcases hy with ⟨u, hu, htune⟩ | hy
    · obtain ⟨j, hj⟩ := List.mem_iff_getElem?.mp hu
      left
      by_cases hji : j = i
      · subst hji
        obtain rfl := Option.some.inj (ht.symm.trans hj)
        exact hself htune
      · exact ⟨u, List.mem_of_getElem? (Config.getElem?_after_ne hji hj), htune⟩
    · rcases hs.capacity_cases with ⟨size, c, rfl, _⟩ | ⟨hc, hcs⟩
      · exact .inl (hself rfl)
      · right
        simp only [Config.after, hc, hcs, hy]

end Run

/-- `running` counts the live worker threads and stays within the capacities of
the pool, which are all `-1` or all positive. In a bounded pool without a `tune`
it stays within the one capacity, and so does `free`. -/
theorem running_within_capacity {o : Options} {x : Config} (h : Run o anyMove x) :
    x.shared.running = x.threads.countP Thread.counted ∧
    ((∀ k ∈ x.shared.past.capacities, k = -1) ∨ ∀ k ∈ x.shared.past.capacities, 1 ≤ k) ∧
    x.shared.past.capacities.head? = some x.shared.capacity ∧
    (x.shared.capacity ≠ -1 → ∃ k ∈ x.shared.past.capacities, x.shared.running ≤ k) ∧
    (x.shared.capacity ≠ -1 → (∀ u ∈ x.threads, u.isTune = false) →
      x.shared.running ≤ x.shared.capacity ∧
        0 ≤ x.shared.free ∧ x.shared.free ≤ x.shared.capacity) := by
  have hb := h.bounded.1
  refine ⟨h.running_eq, hb.uniform, hb.current, hb.within.resolve_left, fun hc hu => ?_⟩
  obtain ⟨k, hk, hle⟩ := hb.within.resolve_left hc
  have hone := h.untuned.resolve_left fun ⟨u, hmem, htune⟩ => by simp [hu u hmem] at htune
  rw [hone] at hk
  obtain rfl := List.mem_singleton.mp hk
  have hnonneg := h.running_nonneg
  have hpos : 1 ≤ x.shared.capacity := hb.capacity_pos.resolve_left hc
  refine ⟨hle, ?_, ?_⟩
  · rw [PoolCore.free, if_neg (by omega)]
    omega
  · rw [PoolCore.free, if_neg (by omega)]
    omega

/-- The bound is met with equality while the one worker of a small pool is busy. -/
theorem running_within_capacity_busy :
    busyPool.shared.running = 1 ∧ busyPool.shared.running ≤ busyPool.shared.capacity ∧
      busyPool.shared.free = 0 := by
  obtain ⟨_, _, _, _, hbound⟩ := running_within_capacity busyPool_run
  exact ⟨by decide, (hbound (by decide) (by decide)).1, by decide⟩

end AntsPool
