import AntsPool.SoloRuns

/-!
# Rings of every size in either build

What a pool promises of its queue it keeps in every build that checks its sums, and in
every other one as long as no sum of the refresh can overflow. Past that bound a build
that wraps its sums around evicts the wrong slots: the head of the ring then stands
before slots that are vacant already, and workers are lost or turned away.
-/
namespace AntsPool
open Interleaving CyclicSlots StampOrder

/-- No condition. -/
def anyBuildMove {b : Build} : Config (BuiltQueue b) → Move → Prop := fun _ _ => True

instance {b : Build} (x : Config (BuiltQueue b)) (m : Move) : Decidable (anyBuildMove x m) :=
  inferInstanceAs (Decidable True)

/-! ## A ring whose refresh wraps around -/

namespace LoopQueue

/-- A ring of `n` slots, all vacant, between two indices. -/
def vacant (n head tail : ℕ) : LoopQueue ℕ := ⟨List.replicate n none, head, tail, n, false⟩

/-- The same with one worker, in slot `k`. -/
def single (n k w : ℕ) : LoopQueue ℕ :=
  ⟨(List.replicate n none).set k (some w), k, k + 1, n, false⟩

variable {n k w : ℕ}

theorem vacant_represents (h : k < n) : (vacant n k k).Represents [] where
  spells := spells_replicate h
  size_eq := List.length_replicate
  tail_eq := (Nat.mod_eq_of_lt h).symm
  full_iff := by
    simp only [vacant, List.length_nil, Bool.false_eq_true, false_iff]
    omega

theorem insert_vacant (h : k + 1 < n) : (vacant n k k).insert w = .ok (single n k w) := by
  simp [insert, vacant, single, Nat.mod_eq_of_lt h]

theorem single_represents (h : k + 1 < n) : (single n k w).Represents [w] :=
  (insert_represents (vacant_represents (by omega)) (insert_vacant h)).1

theorem detach_single (h : k + 1 < n) :
    (single n k w).detach = (some w, vacant n (k + 1) (k + 1)) := by
  have hlt : k < n := by omega
  have hset : (List.replicate n (none : Option ℕ)).set k none = List.replicate n none := by
    simp
  rw [detach, if_neg (by simp [isEmpty, single])]
  simp [single, vacant, hlt, Nat.mod_eq_of_lt h, hset]

/-- The slots of such a ring, in order. -/
theorem single_items (h : k < n) : (single n k w).items =
    List.replicate k none ++ some w :: List.replicate (n - (k + 1)) none := by
  rw [single, List.set_eq_take_append_cons_drop, List.length_replicate, if_pos h,
    List.take_replicate, List.drop_replicate, Nat.min_eq_left h.le]

theorem evict_single (h0 : 0 < k) (hk : k + 1 < n) :
    (single n k w).evict 0 = ([w], vacant n 1 (k + 1)) := by
  obtain ⟨j, rfl⟩ : ∃ j, k = j + 1 := ⟨k - 1, by omega⟩
  have hitems := single_items (w := w) (by omega : j + 1 < n)
  have hlen : (single n (j + 1) w).items.length = n := by simp [single]
  have hlow : takeSlots (single n (j + 1) w).items 0 1 = ([], (single n (j + 1) w).items) := by
    rw [hitems]
    simp [takeSlots, List.replicate_succ]
  have hhigh : takeSlots (single n (j + 1) w).items (j + 1) n = ([w], List.replicate n none) := by
    have htake : (single n (j + 1) w).items.take n = (single n (j + 1) w).items :=
      List.take_of_length_le hlen.le
    have hdrop : (single n (j + 1) w).items.drop n = [] := List.drop_eq_nil_of_le hlen.le
    rw [takeSlots, htake, hdrop, hitems, List.drop_left' List.length_replicate,
      List.take_left' List.length_replicate, List.append_nil, List.replicate_append_replicate,
      Nat.add_sub_cancel' (by omega)]
    simp
  have hhead : ¬ (single n (j + 1) w).head ≤ 0 := by simp [single]
  simp only [evict, if_neg hhead, Nat.zero_add, hlow, hlen]
  simp only [single] at hhigh ⊢
  simp only [hhigh, vacant, Nat.mod_eq_of_lt (by omega : 1 < n)]
  rfl

/-- Where the sum wraps to a multiple of the size, one expired worker moves the head to slot
one, whatever it was before. -/
theorem refreshWith_wrap {stamp : ℕ → ℤ} {now duration : ℤ} (hsum : k + 2 * n = 4294967296)
    (h0 : 0 < k) (hk : k + 1 < n) (hw : stamp w ≤ now - duration) :
    (single n k w).refreshWith (fun z => some (CheckedI32.wrap z)) stamp now duration =
      some ([w], vacant n 1 (k + 1)) := by
  have hrep := single_represents (w := w) hk
  have hlast : lastExpired stamp [w] (now - duration) = 0 := by
    have hone : upTo stamp (now - duration) [w] = 1 := by simp [upTo, hw]
    have hbisect := bisect_stamps (List.pairwise_singleton (fun v w => stamp v ≤ stamp w) w)
      (now - duration)
    rw [hone] at hbisect
    exact hbisect
  have hsearch : (single n k w).binarySearchWith (fun z => some (CheckedI32.wrap z)) stamp
      (now - duration) = some 0 := by
    rw [binarySearchWith_eq (fun z hz => congrArg some (CheckedI32.wrap_of_fits hz)) hrep
      (by simp only [single]; omega), if_neg (by simpa using hw), hlast]
    have hbase : CheckedI32.wrap (0 + k) = k := by
      rw [zero_add]
      exact CheckedI32.wrap_of_fits (by unfold CheckedI32.fits; omega)
    have hwrap : CheckedI32.wrap (k + n) = -n := by
      unfold CheckedI32.wrap
      omega
    simp only [single, hbase, Option.bind_some, hwrap, Int.neg_tmod, Int.tmod_self, neg_zero]
  simp only [refreshWith, hsearch, Option.bind_eq_bind, Option.bind_some]
  rw [if_neg (by decide), if_pos (by simp [single]; omega)]
  exact congrArg some (evict_single h0 hk)

end LoopQueue

/-! ## A pool on such a ring -/

/-- The scavenger takes a worker to be due after one unit of time. -/
def ringOptions : Options := { expiryDuration := 1, preAlloc := true }

/-- An open pool with the ring `q` and `m` workers, those of `busy` with a payload to take;
the threads of `rest` have not started yet. -/
structure Staffed (n m : ℕ) (busy : List ℕ) (rest : List Thread) (q : LoopQueue ℕ)
    (x : Config (BuiltQueue .wrapping)) : Prop where
  opened : x.shared.state = .opened
  unlocked : x.shared.locked = false
  capacity : x.shared.capacity = n
  running : x.shared.running = m
  cache : x.shared.workerCache = []
  count : x.shared.goWorkerCount = m
  now : x.shared.now = 0
  queue : x.shared.workers = .loopQueue q
  purgeCtx : x.shared.purgeCtx = some 1
  event : x.shared.events 1 = false
  stopPurge : x.shared.stopPurge = some 1
  stopTicktock : x.shared.stopTicktock = some 2
  busy : ∀ w ∈ busy, w < m ∧ Thread.work { worker := w } ∈ x.threads ∧
    ∃ p : Payload, p.stop = false ∧ (x.shared.goWorkers w).channel = [.payload p]
  rest : ∀ t ∈ rest, t.background ∧ t ∈ x.threads

/-- Worker `w` is parked. -/
structure ParkedWorker (w : ℕ) (x : Config (BuiltQueue .wrapping)) : Prop where
  waits : Thread.work { worker := w } ∈ x.threads
  empty : x.shared.goWorkers w = ⟨[], 0⟩

namespace Staffed
variable {size : ℤ} {n m w : ℕ} {busy : List ℕ} {rest : List Thread} {q q' : LoopQueue ℕ}
  {x : Config (BuiltQueue .wrapping)}

theorem exists_made (hn : 0 < n) : ∃ x, Made n ringOptions x ∧
    Staffed n 0 [] [.clock, .purge .start] (LoopQueue.vacant n 0 0) x := by
  have hqueue : IdleQueue.new .loopQueue n =
      some (BuiltQueue.loopQueue (b := .wrapping) (LoopQueue.vacant n 0 0)) := by
    change BuiltQueue.new .loopQueue n = _
    rw [BuiltQueue.new, if_pos rfl, LoopQueue.new, if_neg (by omega), Int.toNat_natCast]
    rfl
  have hsize : ¬ (n : ℤ) ≤ 0 := by omega
  have hbounded : (n : ℤ) ≠ -1 := by omega
  have hnew : ∃ x, PoolCore.new n ringOptions 0 (BuiltQueue .wrapping) =
      some (.ok (ringOptions, x)) ∧
      Staffed n 0 [] [.clock, .purge .start] (LoopQueue.vacant n 0 0) x := by
    unfold PoolCore.new
    extract_lets capacity expiry opts
    have hcapacity : capacity = n := if_neg hsize
    have hopts : opts = ringOptions := rfl
    rw [if_neg (by decide), hcapacity, if_neg fun hp => hbounded hp.2, hopts]
    have hring : (if ringOptions.preAlloc then IdleQueue.new .loopQueue (n : ℤ)
        else IdleQueue.new .stack 0) = some (BuiltQueue.loopQueue (b := .wrapping)
          (LoopQueue.vacant n 0 0)) := hqueue
    rw [hring]
    refine ⟨_, rfl, ?_⟩
    constructor
    case rest => simp [Thread.background, ringOptions]
    all_goals first | rfl | simp
  obtain ⟨x, hx, h⟩ := hnew
  exact ⟨x, ⟨ringOptions, 0, hx⟩, h⟩

/-- A caller that finds nobody parked starts one more worker. -/
theorem spawn (hx : BuildRun .wrapping size ringOptions anyBuildMove x)
    (h : Staffed n m busy rest q x) (hq : q.isEmpty = true) (hm : m < n) :
    ∃ y, BuildRun .wrapping size ringOptions anyBuildMove y ∧
      Staffed n (m + 1) (m :: busy) rest q y := by
  have hd : IdleQueue.detach x.shared.workers = (none, x.shared.workers) := by
    rw [h.queue]
    change ((q.detach).1, BuiltQueue.loopQueue q.detach.2) = _
    rw [LoopQueue.detach, if_pos hq]
  have hsolo := solo_spawn (o := ringOptions) (i := x.threads.length)
    (p := ⟨x.threads.length, false⟩) h.opened h.unlocked hd
    (by rw [h.running, h.capacity]; omega) (by rw [h.capacity]; omega) h.cache
  refine ⟨_, Program.Reach.call_solo (c := Call.submit false) hx (fun _ _ => trivial) hsolo, ?_⟩
  refine { h with unlocked := rfl, running := ?_, count := ?_, busy := ?_, rest := ?_ }
  · simp [PoolCore.spawned, h.running]
  · simp [PoolCore.spawned, h.count]
  · intro v hv
    simp only [PoolCore.spawned, h.count]
    rcases List.mem_cons.mp hv with rfl | hv
    · exact ⟨by omega, by simp, _, rfl, by rw [Function.update_self]⟩
    · obtain ⟨hlt, hmem, p, hp, hc⟩ := h.busy v hv
      exact ⟨by omega, List.mem_append_left _ hmem, p, hp,
        by rw [Function.update_of_ne (by omega)]; exact hc⟩
  · exact fun t ht => ⟨(h.rest t ht).1, List.mem_append_left _ (h.rest t ht).2⟩

/-- A worker with a payload executes it and parks itself. -/
theorem park (hx : BuildRun .wrapping size ringOptions anyBuildMove x)
    (h : Staffed n m (w :: busy) rest q x) (hw : w ∉ busy) (hm : m ≤ n)
    (hq : q.insert w = .ok q') :
    ∃ y, BuildRun .wrapping size ringOptions anyBuildMove y ∧ Staffed n m busy rest q' y ∧
      ParkedWorker w y := by
  obtain ⟨hlt, hmem, p, hp, hc⟩ := h.busy w List.mem_cons_self
  obtain ⟨i, hi⟩ := List.mem_iff_getElem?.mp hmem
  have hinsert : IdleQueue.insert w x.shared.workers = .ok (.loopQueue q') := by
    rw [h.queue]
    exact congrArg (Except.map BuiltQueue.loopQueue) hq
  have hsolo := solo_park (o := ringOptions) (i := i) h.opened h.unlocked hp hc
    (by rw [h.capacity]; omega) (by rw [h.running, h.capacity]; omega) hinsert
  have hy := Program.Reach.solo hx (fun _ _ => trivial) hi hsolo
  rw [Config.after_self hi] at hy
  refine ⟨_, hy, { h with unlocked := rfl, queue := rfl, busy := fun v hv => ?_ }, hmem, ?_⟩
  · obtain ⟨hlt, hmem, hch⟩ := h.busy v (List.mem_cons_of_mem w hv)
    simp only [PoolCore.executed]
    rw [Function.update_of_ne (ne_of_mem_of_not_mem hv hw)]
    exact ⟨hlt, hmem, hch⟩
  · simp only [PoolCore.executed, Function.update_self, h.now]

/-- The next caller hands its payload to a parked worker. -/
theorem dispatch (hx : BuildRun .wrapping size ringOptions anyBuildMove x)
    (h : Staffed n m busy rest q x) (hp : ParkedWorker w x) (hm : w < m) (hw : w ∉ busy)
    (hq : q.detach = (some w, q')) :
    ∃ y, BuildRun .wrapping size ringOptions anyBuildMove y ∧
      Staffed n m (w :: busy) rest q' y := by
  have hd : IdleQueue.detach x.shared.workers = (some w, BuiltQueue.loopQueue q') := by
    rw [h.queue]
    change ((q.detach).1, BuiltQueue.loopQueue q.detach.2) = _
    rw [hq]
  have hsolo := solo_dispatch (o := ringOptions) (i := x.threads.length)
    (p := ⟨x.threads.length, false⟩) h.opened h.unlocked hd
  refine ⟨_, Program.Reach.call_solo (c := Call.submit false) hx (fun _ _ => trivial) hsolo,
    { h with unlocked := rfl, queue := rfl, busy := fun v hv => ?_, rest := fun t ht => ?_ }⟩
  · simp only [PoolCore.dispatched, PoolCore.send, hp.empty, List.nil_append]
    rcases List.mem_cons.mp hv with rfl | hv
    · exact ⟨hm, List.mem_append_left _ hp.waits, _, rfl, by rw [Function.update_self]⟩
    · obtain ⟨hlt, hmem, p, hstop, hc⟩ := h.busy v hv
      rw [Function.update_of_ne (ne_of_mem_of_not_mem hv hw)]
      exact ⟨hlt, List.mem_append_left _ hmem, p, hstop, hc⟩
  · exact ⟨(h.rest t ht).1, List.mem_append_left _ (h.rest t ht).2⟩

/-- A worker that parks itself and is sent for at once moves the head of the ring on by one. -/
theorem rotate (hx : BuildRun .wrapping size ringOptions anyBuildMove x) {k : ℕ}
    (h : Staffed n m (w :: busy) rest (LoopQueue.vacant n 0 0) x) (hw : w ∉ busy) (hm : m ≤ n)
    (hk : k < n) : ∃ y, BuildRun .wrapping size ringOptions anyBuildMove y ∧
      Staffed n m (w :: busy) rest (LoopQueue.vacant n k k) y := by
  induction k with
  | zero => exact ⟨x, hx, h⟩
  | succ k ih =>
      obtain ⟨y, hy, hstaff⟩ := ih (by omega)
      obtain ⟨z, hz, hstaff, hparked⟩ := hstaff.park hy hw hm (LoopQueue.insert_vacant hk)
      exact hstaff.dispatch hz hparked (h.busy w List.mem_cons_self).1 hw
        (LoopQueue.detach_single hk)

/-- The scavenger comes by when one worker is parked and due. The sum of the refresh wraps
around, and the head goes to a slot that nothing is in. -/
theorem misled (hx : BuildRun .wrapping size ringOptions anyBuildMove x) {k : ℕ}
    (h : Staffed n m busy [.clock, .purge .start] (LoopQueue.single n k w) x)
    (hp : ParkedWorker w x) (hsum : k + 2 * n = 4294967296) (h0 : 0 < k) (hk : k + 1 < n) :
    ∃ y, BuildRun .wrapping size ringOptions anyBuildMove y ∧
      Staffed n m busy [] (LoopQueue.vacant n 1 (k + 1)) y := by
  obtain ⟨j, hj⟩ := List.mem_iff_getElem?.mp (h.rest .clock (.head _)).2
  obtain ⟨i, hi⟩ := List.mem_iff_getElem?.mp (h.rest (.purge .start) (.tail _ (.head _))).2
  have hclock : BuildRun .wrapping size ringOptions anyBuildMove
      ⟨{ x.shared with clock := 10 }, x.threads⟩ := by
    rw [← Config.after_self hj]
    exact Program.Reach.step (a := Env.time 10) hx trivial hj rfl
  have hdue : PoolCore.stamp { x.shared with clock := 10 } w ≤ 10 - 1 := by
    simp [PoolCore.stamp, hp.empty]
  have hrefresh : PoolCore.refreshed ringOptions { x.shared with clock := 10 } =
      some ([w], .loopQueue (LoopQueue.vacant n 1 (k + 1))) := by
    unfold PoolCore.refreshed
    rw [h.queue]
    exact congrArg (Option.map fun r => (r.1, BuiltQueue.loopQueue r.2))
      (LoopQueue.refreshWith_wrap hsum h0 hk hdue)
  obtain ⟨dormant, hsolo⟩ := solo_refresh (o := ringOptions) (i := i)
    (s := { x.shared with clock := 10 }) h.opened h.unlocked h.purgeCtx h.event hrefresh
  refine ⟨_, Program.Reach.solo hclock (fun _ _ => trivial) hi hsolo,
    { h with queue := rfl, busy := fun v hv => ?_, rest := fun t ht => ?_ }⟩
  · obtain ⟨hlt, hmem, hch⟩ := h.busy v hv
    have hne : Thread.purge .start ≠ .work ⟨v, false, .recv⟩ := fun he => by cases he
    exact ⟨hlt, Config.mem_after_of_ne (x := ⟨{ x.shared with clock := 10 }, x.threads⟩) hi hmem
      hne _, hch⟩
  · cases ht

end Staffed

/-- In a build that wraps around, a preallocated pool whose size comes to `2 ^ 32` when it is
added twice to some slot `k` can get into this state, with three workers at work. -/
theorem exists_misled {n k : ℕ} (hsum : k + 2 * n = 4294967296) (h0 : 0 < k) (hk : k + 1 < n)
    (hn : 4 ≤ n) : ∃ x, BuildRun .wrapping n ringOptions anyBuildMove x ∧
      Staffed n 4 [3, 2, 1] [] (LoopQueue.vacant n 1 (k + 1)) x := by
  obtain ⟨x₀, hmade, h₀⟩ := Staffed.exists_made (n := n) (by omega)
  have hempty : (LoopQueue.vacant n 0 0).isEmpty = true := rfl
  obtain ⟨x₁, hx₁, h₁⟩ := h₀.spawn (.init hmade) hempty (by omega)
  obtain ⟨x₂, hx₂, h₂⟩ := h₁.spawn hx₁ hempty (by omega)
  obtain ⟨x₃, hx₃, h₃⟩ := h₂.spawn hx₂ hempty (by omega)
  obtain ⟨x₄, hx₄, h₄⟩ := h₃.spawn hx₃ hempty (by omega)
  have h₄ : Staffed n 4 [0, 3, 2, 1] [.clock, .purge .start] (LoopQueue.vacant n 0 0) x₄ :=
    { h₄ with busy := fun w hw => h₄.busy w (by simp at hw ⊢; tauto) }
  obtain ⟨x₅, hx₅, h₅⟩ := h₄.rotate hx₄ (by decide) hn (by omega : k < n)
  obtain ⟨x₆, hx₆, h₆, hparked⟩ := h₅.park hx₅ (by decide) hn (LoopQueue.insert_vacant hk)
  exact h₆.misled hx₆ hparked hsum h0 hk

namespace LoopQueue

/-- One worker in slot `t`, and vacant slots before it up to the head. -/
def stray (n t w : ℕ) : LoopQueue ℕ := ⟨(List.replicate n none).set t (some w), 1, t + 1, n, false⟩

variable {n t w : ℕ}

theorem insert_vacant_one (ht : t + 1 < n) (h0 : 0 < t) :
    (vacant n 1 t).insert w = .ok (stray n t w) := by
  have hne : t ≠ 0 := by omega
  simp [insert, vacant, stray, Nat.mod_eq_of_lt ht, hne]

theorem detach_stray (h1 : 1 < t) : (stray n t w).detach.1 = none := by
  have hempty : ¬ (stray n t w).isEmpty = true := by
    simp [isEmpty, stray]
    omega
  have hslot : ((stray n t w).items[1]?).join = none := by
    simp only [stray]
    rw [List.getElem?_set_ne (by omega), List.getElem?_replicate]
    split_ifs <;> rfl
  rw [detach, if_neg hempty]
  exact hslot

/-- A reset stops at the first vacant slot. -/
theorem reset_stray (h1 : 1 < t) : (stray n t w).reset.1 = [] := by
  have hall : (stray n t w).detachAll.1 = [] := by
    rw [detachAll]
    split
    · rfl
    · rename_i v q hd
      rw [Prod.ext_iff] at hd
      cases (detach_stray h1).symm.trans hd.1
  rw [reset]
  split_ifs
  · rfl
  · exact hall

theorem contents_stray (ht : t < n) (h0 : 0 < t) : (stray n t w).contents = [w] := by
  obtain ⟨j, rfl⟩ : ∃ j, t = j + 1 := ⟨t - 1, by omega⟩
  have hlen : (stray n (j + 1) w).len = j + 1 := by
    have hn : n ≠ 0 := by omega
    simp [len, stray, isEmpty, hn]
  have hslot : ∀ k ≤ j, ((stray n (j + 1) w).items[(1 + k) % n]?).join =
      if k = j then some w else none := by
    intro k hk
    rw [Nat.mod_eq_of_lt (by omega)]
    simp only [stray, List.getElem?_set, List.getElem?_replicate, List.length_replicate]
    split_ifs <;> first | rfl | omega
  have hvacant : ((List.range j).filterMap fun k =>
      ((stray n (j + 1) w).items[(1 + k) % n]?).join) = [] := by
    rw [List.filterMap_eq_nil_iff]
    intro k hk
    have hlt := List.mem_range.mp hk
    rw [hslot k hlt.le, if_neg hlt.ne]
  have hlast : ([j].filterMap fun k => ((stray n (j + 1) w).items[(1 + k) % n]?).join) = [w] := by
    rw [List.filterMap_cons, hslot j le_rfl, if_pos rfl]
    rfl
  rw [contents, hlen, List.range_succ, List.filterMap_append]
  exact congrArg₂ (· ++ ·) hvacant hlast

/-- The last slot, and then the one before the head. -/
theorem insert_twice (h0 : 0 < t) {v w : ℕ} : ∃ q r : LoopQueue ℕ,
    (vacant (t + 1) 1 t).insert v = .ok q ∧ q.insert w = .ok r ∧ r.isFull = true := by
  refine ⟨⟨(List.replicate (t + 1) none).set t (some v), 1, 0, t + 1, false⟩,
    ⟨((List.replicate (t + 1) none).set t (some v)).set 0 (some w), 1, 1, t + 1, true⟩, ?_, ?_, rfl⟩
  · simp [insert, vacant]
  · have hone : (0 + 1) % (t + 1) = 1 := Nat.mod_eq_of_lt (by omega)
    simp [insert, hone]

end LoopQueue

/-! ## What a pool promises of its queue -/

/-- The number of slots; a stack has no limit. -/
def BuiltQueue.slots {b : Build} : BuiltQueue b → Option ℕ
  | .stack _ => none
  | .loopQueue q => some q.size

theorem WorkerQueue.built_slots {b : Build} (q : WorkerQueue ℕ) :
    (q.built (b := b)).slots = q.slots := by
  cases q <;> rfl

/-- Once the release that made the latest exchange has made its reset, a closed pool has no
parked worker, no thread is about to park one, and every worker that was parked at that
reset has been sent exactly one `Finish`. -/
theorem closed_pool_parks_none {b : Build} {size : ℤ} {o : Options} (hsafe : safeBuild b size o)
    {x : Config (BuiltQueue b)} (h : BuildRun b size o anyBuildMove x) {i : ℕ} {t : Release}
    (hc : x.shared.state = .closed) (hi : x.shared.past.closer = some i)
    (ht : x.threads[i]? = some (.release t)) (hreset : t.pc.closing = false) :
    IdleQueue.items x.shared.workers = [] ∧ (∀ u ∈ x.threads, u.inserting = none) ∧
      ∃ l, x.shared.past.drained = some l ∧ ∀ w ∈ l, x.shared.past.finished.count w = 1 := by
  obtain ⟨x, hx, rfl⟩ := BuildRun.exists_run (G := anyMove) hsafe (fun _ _ _ => trivial) h
  have hrun : Run o anyMove x := hx.mono fun _ => Made.starts
  obtain ⟨hitems, hrest⟩ := hrun.parks_none hc hi ht hreset
  exact ⟨(WorkerQueue.built_alike.items _).trans hitems, hrest⟩

/-- A pool with one slot, in a build that wraps its sums around. -/
def smallBuild (o : Options) : Option (Config (BuiltQueue .wrapping)) :=
  (PoolCore.new 1 o 0 (BuiltQueue .wrapping)).bind fun r => r.toOption.map Prod.snd

/-- A worker is parked when the pool is closed and reset. -/
theorem closed_pool_parks_none_small :
    ∃ x, BuildRun .wrapping 1 smallOptions anyBuildMove x ∧ x.shared.past.drained = some [0] ∧
      IdleQueue.items x.shared.workers = [] ∧ x.shared.past.finished.count 0 = 1 := by
  obtain ⟨x, hx, hφ⟩ := Program.Reach.exists_of_run
    (P := program smallOptions (BuiltQueue .wrapping)) (I := Made 1 smallOptions)
    (G := anyBuildMove) (x := (smallBuild smallOptions).get rfl)
    (m := .call (.submit false) :: steps 2 7 ++ steps 3 8 ++ .call .release :: steps 4 5)
    (φ := fun x => decide (x.shared.state = .closed ∧ x.shared.past.closer = some 4 ∧
      x.threads[4]? = some (Thread.release ⟨.plain, none, none, .broadcast⟩) ∧
      x.shared.past.drained = some [0]))
    ⟨smallOptions, 0, rfl⟩ (by decide)
  obtain ⟨hclosed, hcloser, ht, hdrained⟩ := of_decide_eq_true hφ
  obtain ⟨hitems, _, l, hl, hcount⟩ :=
    closed_pool_parks_none (.inr (.inl rfl)) hx hclosed hcloser ht rfl
  cases hdrained.symm.trans hl
  exact ⟨x, hx, hdrained, hitems, hcount 0 (.head _)⟩

/-- Two slots into the largest ring: a worker that parks itself after the refresh is in the
queue at the reset of a release and is never sent a `Finish`. -/
theorem parked_worker_left_behind :
    ∃ x, BuildRun .wrapping 2147483647 ringOptions anyBuildMove x ∧ x.shared.state = .closed ∧
      (∃ i t, x.shared.past.closer = some i ∧ x.threads[i]? = some (.release t) ∧
        t.pc.closing = false) ∧
      x.shared.past.drained = some [3] ∧ x.shared.past.finished.count 3 = 0 := by
  obtain ⟨x, hx, h⟩ := exists_misled (n := 2147483647) (k := 2) (by decide) (by decide)
    (by decide) (by decide)
  obtain ⟨y, hy, hstaff, -⟩ := h.park hx (by decide) (by decide)
    (LoopQueue.insert_vacant_one (by decide) (by decide))
  have hreset : IdleQueue.reset y.shared.workers =
      ([], .loopQueue (LoopQueue.stray 2147483647 3 3).reset.2) := by
    rw [hstaff.queue]
    change ((LoopQueue.stray 2147483647 3 3).reset.1, _) = _
    rw [LoopQueue.reset_stray (by decide)]
  obtain ⟨s', hsolo, hclosed, hcloser, hfinished, hdrained⟩ := solo_release (o := ringOptions)
    (i := y.threads.length) hstaff.opened hstaff.unlocked hstaff.stopPurge hstaff.stopTicktock
    hreset
  refine ⟨_, Program.Reach.call_solo (c := Call.release) hy (fun _ _ => trivial) hsolo, hclosed,
    ⟨_, _, hcloser, List.getElem?_concat_length, rfl⟩, ?_, ?_⟩
  · rw [hdrained, hstaff.queue]
    exact congrArg some (LoopQueue.contents_stray (by decide) (by decide))
  · rw [hfinished]
    rfl

/-- In a preallocated pool the parked workers are at most the running ones, these at most the
capacity, and the capacity is the size of the ring. A worker about to be put back is
running and not parked, so the ring takes it. -/
theorem ring_never_overflows {b : Build} {size : ℤ} {o : Options} (hsafe : safeBuild b size o)
    {x : Config (BuiltQueue b)} (h : BuildRun b size o anyBuildMove x) (hp : o.preAlloc = true) :
    x.shared.workers.slots = some x.shared.capacity.toNat ∧
    ((IdleQueue.items x.shared.workers).length : ℤ) ≤ x.shared.running ∧
    x.shared.running ≤ x.shared.capacity ∧
    ∀ w p, Thread.work ⟨w, p, .insert⟩ ∈ x.threads →
      w ∉ IdleQueue.items x.shared.workers ∧
      ((IdleQueue.items x.shared.workers).length : ℤ) < x.shared.running ∧
      ∃ q, IdleQueue.insert w x.shared.workers = .ok q := by
  obtain ⟨x, hx, rfl⟩ := BuildRun.exists_run (G := anyMove) hsafe (fun _ _ _ => trivial) h
  have hrun : Run o anyMove x := hx.mono fun _ => Made.starts
  obtain ⟨hslots, hparked, hrunning, hinsert⟩ := hrun.ring_has_room hp
  simp only [Config.mapShared, PoolCore.map_workers, WorkerQueue.built_slots,
    WorkerQueue.built_alike.items, WorkerQueue.built_alike.insert]
  refine ⟨hslots, hparked, hrunning, fun w p ht => ?_⟩
  obtain ⟨hw, hlt, q, hq⟩ := hinsert w p ht
  exact ⟨hw, hlt, q.built, congrArg (Except.map WorkerQueue.built) hq⟩

/-- The one worker of a ring of one slot about to be put back. -/
theorem ring_never_overflows_small :
    ∃ x, BuildRun .wrapping 1 { disablePurge := true, preAlloc := true } anyBuildMove x ∧
      Thread.work ⟨0, false, .insert⟩ ∈ x.threads ∧ x.shared.workers.slots = some 1 ∧
      x.shared.running = 1 ∧ ∃ q, IdleQueue.insert 0 x.shared.workers = .ok q := by
  obtain ⟨x, hx, hφ⟩ := Program.Reach.exists_of_run
    (P := program { disablePurge := true, preAlloc := true } (BuiltQueue .wrapping))
    (I := Made 1 { disablePurge := true, preAlloc := true }) (G := anyBuildMove)
    (x := (smallBuild { disablePurge := true, preAlloc := true }).get rfl)
    (m := .call (.submit false) :: steps 2 7 ++ steps 3 7)
    (φ := fun x => decide (Thread.work ⟨0, false, .insert⟩ ∈ x.threads ∧
      x.shared.workers.slots = some 1 ∧ x.shared.running = 1))
    ⟨{ disablePurge := true, preAlloc := true }, 0, rfl⟩ (by decide)
  obtain ⟨ht, hslots, hr⟩ := of_decide_eq_true hφ
  exact ⟨x, hx, ht, hslots, hr,
    ((ring_never_overflows (.inr (.inr (by decide))) hx rfl).2.2.2 0 false ht).2.2⟩

/-- In a smaller ring with its head two slots before the end the third worker to come back
is turned away, with two parked. -/
theorem worker_turned_away :
    ∃ x, BuildRun .wrapping 1431655766 ringOptions anyBuildMove x ∧ x.shared.running = 4 ∧
      Thread.work ⟨1, false, .insert⟩ ∈ x.threads ∧
      IdleQueue.insert 1 x.shared.workers = .error .queueIsFull := by
  obtain ⟨x, hx, h⟩ := exists_misled (n := 1431655765 + 1) (k := 1431655764) (by decide)
    (by decide) (by decide) (by decide)
  obtain ⟨q, r, hq, hr, hfull⟩ := LoopQueue.insert_twice (t := 1431655765) (v := 3) (w := 2)
    (by decide)
  obtain ⟨y, hy, hstaff, -⟩ := h.park hx (by decide) (by decide) hq
  obtain ⟨z, hz, hstaff, -⟩ := hstaff.park hy (by decide) (by decide) hr
  obtain ⟨_, hmem, p, hstop, hc⟩ := hstaff.busy 1 (.head _)
  obtain ⟨i, hi⟩ := List.mem_iff_getElem?.mp hmem
  have hsolo := solo_execute (o := ringOptions) (i := i) hstaff.opened hstaff.unlocked hstop hc
    (by rw [hstaff.capacity]; decide) (by rw [hstaff.running, hstaff.capacity]; decide)
  refine ⟨_, Program.Reach.solo hz (fun _ _ => trivial) hi hsolo, hstaff.running,
    List.mem_of_getElem? (Config.getElem?_after_self hi), ?_⟩
  have hinsert : r.insert 1 = .error .queueIsFull := by rw [LoopQueue.insert, if_pos hfull]
  change IdleQueue.insert 1 z.shared.workers = _
  rw [hstaff.queue]
  exact congrArg (Except.map BuiltQueue.loopQueue) hinsert

end AntsPool
