import AntsPool.Capacity
import AntsPool.CheckedI32
import AntsPool.MultiPoolSteps

/-!
# The sums over the pools of a multi-pool

`cap`, `free`, `running` and `waiting` add one `i32` of every pool, from the first to
the last. The pools of a multi-pool are made alike, so their capacities are all `-1` or
all positive, whatever is tuned later.
-/
namespace AntsPool
open Interleaving ListTotals CheckedI32

/-- The capacities that a pool has had include the one it was made with. -/
theorem first_capacity_mem {o : Options} {G : Guard} {k : ℤ} {x : Config}
    (h : (AntsPool.program o).Reach (fun z => Starts o z ∧ z.shared.capacity = k) G x) :
    k ∈ x.shared.past.capacities := by
  refine Program.Reach.invariant (J := fun x => k ∈ x.shared.past.capacities) ?_ ?_ ?_ h
  · rintro y ⟨hy, rfl⟩
    rw [hy.fresh.capacities]
    exact List.mem_singleton_self _
  · exact fun _ _ _ hy _ => hy
  · intro y i a t r _ hy _ _ hr
    rcases (program_step hr).capacity_cases with ⟨size, c, _, _, hcs⟩ | ⟨_, hcs⟩
    · change k ∈ r.1.past.capacities
      rw [hcs]
      exact List.mem_cons_of_mem size hy
    · change k ∈ r.1.past.capacities
      rwa [hcs]

namespace MultiPool

/-- `pools.iter().map(Poolish::running).sum()` and its siblings; `none` is an overflow. -/
def running (pools : List Config) : Option ℤ := sum (pools.map fun c => c.shared.running)

def free (pools : List Config) : Option ℤ := sum (pools.map fun c => c.shared.free)

def waiting (pools : List Config) : Option ℤ := sum (pools.map fun c => c.shared.waiting)

def cap (pools : List Config) : Option ℤ := sum (pools.map fun c => c.shared.capacity)

/-- What `MultiPool::new` returns for an `i32` number of pools. -/
def StartsAlike (o : Options) (x : State) : Prop :=
  ∃ size ≤ 2147483647, ∃ lbs sizePerPool options clock,
    (∀ i r, PoolCore.new sizePerPool options (clock i) = some (.ok r) → r.1 = o) ∧
      new size lbs (makePool sizePerPool options clock) = some (.ok x)

theorem new_capacity {size : ℤ} {options : Options} {clock : ℤ} {r : Options × Config}
    (h : PoolCore.new size options clock = some (.ok r)) :
    r.2.shared.capacity = if size ≤ 0 then -1 else size := by
  obtain ⟨_, capacity, hcapacity, _, queue, _, purge, events, latest, _, hs, _⟩ :=
    PoolCore.new_ok h
  rw [hs, ← hcapacity]

theorem new_options {size : ℤ} {options : Options} {clock : ℤ} {r : Options × Config}
    (hp : options.disablePurge = true) (h : PoolCore.new size options clock = some (.ok r)) :
    r.1 = options :=
  (PoolCore.new_ok h).1 hp

/-- The pools are made alike. -/
theorem StartsAlike.spec {o : Options} {x : State} (h : StartsAlike o x) :
    Starts o x ∧ x.shared.members.length ≤ 2147483647 ∧
      ∃ k : ℤ, (k = -1 ∨ 1 ≤ k) ∧
        ∀ c ∈ x.shared.members, AntsPool.Starts o c ∧ c.shared.capacity = k := by
  obtain ⟨size, hsize, lbs, sizePerPool, options, clock, ho, h⟩ := h
  have hpool : ∀ i c, makePool sizePerPool options clock i = some (.ok c) →
      AntsPool.Starts o c ∧ c.shared.capacity = if sizePerPool ≤ 0 then -1 else sizePerPool := by
    intro i c hc
    obtain ⟨r, hr, hrc⟩ := Option.map_eq_some_iff.mp hc
    cases r with
    | error e => cases hrc
    | ok r =>
        cases hrc
        obtain rfl := ho i r hr
        exact ⟨⟨sizePerPool, options, clock i, hr⟩, new_capacity hr⟩
  refine ⟨⟨size, lbs, _, fun i c hc => (hpool i c hc).1, h⟩, ?_⟩
  obtain ⟨hpos, _, pools, hlen, hpools, rfl⟩ := new_ok h
  refine ⟨?_, if sizePerPool ≤ 0 then -1 else sizePerPool, ?_, fun c hc => ?_⟩
  · change pools.length ≤ 2147483647
    omega
  · split_ifs <;> omega
  · obtain ⟨i, hi⟩ := hpools c hc
    exact hpool i c hi

/-- What the sums need of the pools: the signs of what is added. -/
structure Alike (o : Options) (pools : List Config) : Prop where
  length_le : pools.length ≤ 2147483647
  capacity : (∀ c ∈ pools, c.shared.capacity = -1) ∨ ∀ c ∈ pools, 1 ≤ c.shared.capacity
  running : ∀ c ∈ pools, 0 ≤ c.shared.running
  waiting : ∀ c ∈ pools, 0 ≤ c.shared.waiting

theorem alike_of_run {o : Options} {G : Guard} {x : State}
    (h : (program o).Reach (StartsAlike o) G x) : Alike o x.shared.members := by
  obtain ⟨x₀, hx₀, hx⟩ := h.exists_start
  obtain ⟨_, hlen, k, hk, hall⟩ := hx₀.spec
  have hreach : ∀ c ∈ x.shared.members, (AntsPool.program o).Reach
      (fun z => AntsPool.Starts o z ∧ z.shared.capacity = k) anyMove c := by
    intro c hc
    obtain ⟨i, hi⟩ := List.mem_iff_getElem?.mp hc
    refine Facade.member_reach ?_ (fun _ _ => trivial)
      (fun y m _ => Facade.lift_of_forall (fun _ _ => trivial) y m) hx hi
    rintro y rfl c hc
    exact hall c hc
  have hrun : ∀ c ∈ x.shared.members, AntsPool.Run o anyMove c := fun c hc =>
    (hreach c hc).mono fun _ hz => hz.1
  refine ⟨(Facade.reach_length hx).trans_le hlen, ?_, fun c hc => (hrun c hc).running_nonneg,
    fun c hc => ?_⟩
  · -- a pool's capacity stays of the kind that it was made with
    have hkind : ∀ c ∈ x.shared.members,
        (k = -1 ∧ c.shared.capacity = -1) ∨ (1 ≤ k ∧ 1 ≤ c.shared.capacity) := by
      intro c hc
      have hb := (hrun c hc).bounded.1
      have hfirst := first_capacity_mem (hreach c hc)
      rcases hb.uniform with hall | hall
      · exact .inl ⟨hall _ hfirst, hall _ hb.current_mem⟩
      · exact .inr ⟨hall _ hfirst, hall _ hb.current_mem⟩
    rcases hk with rfl | hk
    · exact .inl fun c hc => ((hkind c hc).resolve_right (by omega)).2
    · exact .inr fun c hc => ((hkind c hc).resolve_left (by omega)).2
  · rw [(hrun c hc).waiting_eq]
    omega

namespace Alike
variable {o : Options} {pools : List Config}

/-- The capacities can be summed when they are all `-1` or their total is in range. -/
theorem cap_eq (h : Alike o pools)
    (hle : total (fun c => c.shared.capacity) pools ≤ 2147483647) :
    cap pools = some (total (fun c => c.shared.capacity) pools) := by
  rcases h.capacity with hneg | hpos
  · exact sum_of_neg_one hneg h.length_le
  · exact (sum_iff_of_nonneg fun c hc => by have := hpos c hc; omega).mpr hle

/-- What is free lies between the capacity and the running workers, counted down. -/
theorem free_eq (h : Alike o pools)
    (hcap : total (fun c => c.shared.capacity) pools ≤ 2147483647)
    (hrunning : total (fun c => c.shared.running) pools ≤ 2147483647) :
    free pools = some (total (fun c => c.shared.free) pools) := by
  rcases h.capacity with hneg | hpos
  · have hfree : ∀ c ∈ pools, c.shared.free = -1 := fun c hc => by
      rw [PoolCore.free, hneg c hc, if_pos (by omega)]
    exact sum_of_neg_one hfree h.length_le
  · have hfree : ∀ c ∈ pools, c.shared.free = c.shared.capacity - c.shared.running :=
      fun c hc => by
        have := hpos c hc
        rw [PoolCore.free, if_neg (by omega)]
    apply @sum_of_bounds _ (fun c => -c.shared.running) _ (fun c => c.shared.capacity)
    · intro c hc
      have := hpos c hc
      have := h.running c hc
      rw [hfree c hc]
      omega
    · intro c hc
      have := hpos c hc
      have := h.running c hc
      rw [hfree c hc]
      omega
    · rw [total_neg]
      omega
    · exact hcap

end Alike

/-- In every run of every multi-pool, the four sums are the exact ones, with no partial
sum out of range, just when the totals of the capacities, of the running workers and of
the waiting callers are in range. -/
theorem aggregates_exact_iff {o : Options} {G : Guard} {x : State}
    (h : (program o).Reach (StartsAlike o) G x) :
    (cap x.shared.members = some (total (fun c => c.shared.capacity) x.shared.members) ∧
      free x.shared.members = some (total (fun c => c.shared.free) x.shared.members) ∧
      running x.shared.members = some (total (fun c => c.shared.running) x.shared.members) ∧
      waiting x.shared.members = some (total (fun c => c.shared.waiting) x.shared.members)) ↔
    total (fun c => c.shared.capacity) x.shared.members ≤ 2147483647 ∧
      total (fun c => c.shared.running) x.shared.members ≤ 2147483647 ∧
      total (fun c => c.shared.waiting) x.shared.members ≤ 2147483647 := by
  have halike := alike_of_run h
  constructor
  · rintro ⟨hcap, _, hrunning, hwaiting⟩
    exact ⟨(sum_eq_some hcap).2.2, (sum_eq_some hrunning).2.2, (sum_eq_some hwaiting).2.2⟩
  · rintro ⟨hcap, hrunning, hwaiting⟩
    exact ⟨halike.cap_eq hcap, halike.free_eq hcap hrunning,
      (sum_iff_of_nonneg halike.running).mpr hrunning,
      (sum_iff_of_nonneg halike.waiting).mpr hwaiting⟩

/-- `MultiPool::new(2, sizePerPool, ROUND_ROBIN)`. -/
def twoPools (sizePerPool : ℤ) : Option (Except Error State) :=
  new 2 roundRobin (makePool sizePerPool smallOptions fun _ => 0)

theorem twoPools_starts {sizePerPool : ℤ} {x : State} (h : twoPools sizePerPool = some (.ok x)) :
    StartsAlike smallOptions x := by
  exact ⟨2, by decide, roundRobin, sizePerPool, smallOptions, fun _ => 0,
    fun i r hr => new_options rfl hr, h⟩

def pairedPools : State := ((twoPools 2).get rfl).toOption.get rfl

/-- Three payloads go to the pools in turn, two of them to the first one. Then both are
tuned to one slot, and the caller of a fourth one parks on the second. -/
def tunedMoves : List Move :=
  .call (.submit false) :: own 1 3 ++ inside 0 2 7 ++ own 1 1 ++ inside 0 3 1 ++
    .call (.submit false) :: own 2 3 ++ inside 1 2 7 ++ own 2 1 ++ inside 1 3 1 ++
    .call (.submit false) :: own 3 3 ++ inside 0 4 7 ++ own 3 1 ++ inside 0 5 1 ++
    .call (.tune 1) :: own 4 1 ++ inside 0 6 2 ++ own 4 2 ++ inside 1 4 2 ++ own 4 2 ++
    .call (.submit false) :: own 5 3 ++ inside 1 5 5

/-- The first pool runs one worker more than it has slots. -/
theorem aggregates_exact_iff_small :
    ∃ x, (program smallOptions).Reach (StartsAlike smallOptions) (fun _ _ => True) x ∧
      cap x.shared.members = some 2 ∧ free x.shared.members = some (-1) ∧
      running x.shared.members = some 3 ∧ waiting x.shared.members = some 1 := by
  obtain ⟨x, hx, hφ⟩ := Program.Reach.exists_of_run
    (P := program smallOptions) (I := StartsAlike smallOptions) (G := fun _ _ => True)
    (x := pairedPools) (m := tunedMoves)
    (φ := fun x => decide (total (fun c => c.shared.capacity) x.shared.members = 2 ∧
      total (fun c => c.shared.free) x.shared.members = -1 ∧
      total (fun c => c.shared.running) x.shared.members = 3 ∧
      total (fun c => c.shared.waiting) x.shared.members = 1)) (twoPools_starts rfl) (by decide)
  obtain ⟨hcap, hfree, hrunning, hwaiting⟩ := of_decide_eq_true hφ
  have hall := (aggregates_exact_iff hx).mpr (by rw [hcap, hrunning, hwaiting]; decide)
  rw [hcap, hfree, hrunning, hwaiting] at hall
  exact ⟨x, hx, hall⟩

/-- Two pools of the default size. -/
theorem cap_overflows :
    ∃ x, twoPools 2147483647 = some (.ok x) ∧ StartsAlike smallOptions x ∧
      cap x.shared.members = none :=
  ⟨_, rfl, twoPools_starts rfl, by decide⟩

end MultiPool

end AntsPool
