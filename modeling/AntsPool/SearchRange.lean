import AntsPool.Eviction

/-!
# The searches in `i32`

The ring's search computes its positions partly in `usize` and partly in `i32`.
Here every `i32` value and every index is checked. The last sum of the search adds
the mapped position, the head and the size, so it decides which rings are safe.
-/
namespace AntsPool
open CheckedI32 StampOrder

namespace LoopQueue
variable {W : Type}

/-- The search stays in `i32` and answers `-1` or a slot of the ring. -/
def searchInRange (stamp : W → ℤ) (q : LoopQueue W) (expiryTime : ℤ) : Prop :=
  ∃ index, q.binarySearchI32 stamp expiryTime = some index ∧
    (index = -1 ∨ (0 ≤ index ∧ index < q.size))

/-- The mapped position the loop ends at, read off the list. -/
def lastExpired (stamp : W → ℤ) (l : List W) (expiryTime : ℤ) : ℤ :=
  Bisection.bisect (fun mid => expiryTime < l[mid.toNat]?.elim 0 stamp) 0 (l.length - 1)

variable {q : LoopQueue W} {l : List W} {stamp : W → ℤ}

theorem lastExpired_lt (stamp : W → ℤ) (l : List W) (expiryTime : ℤ) :
    lastExpired stamp l expiryTime < l.length := by
  have := Bisection.bisect_le
    (fun mid => decide (expiryTime < l[mid.toNat]?.elim 0 stamp)) 0 (l.length - 1)
  unfold lastExpired
  omega

theorem lastExpired_nonneg {expiryTime : ℤ} (hne : l ≠ [])
    (hfirst : ¬ expiryTime < l[0]?.elim 0 stamp) : 0 ≤ lastExpired stamp l expiryTime := by
  have hpos := List.length_pos_iff.mpr hne
  exact Bisection.le_bisect_of_early _ 0 _ (by omega) (by simpa using hfirst)

/-- In a ring of `i32` size only the final sum can leave the range, so the build decides
nothing else. -/
theorem binarySearchWith_eq {i32 : ℤ → Option ℤ} (hi32 : ∀ z, fits z → i32 z = some z)
    (h : q.Represents l) (hsize : q.size ≤ 2147483647) (expiryTime : ℤ) :
    q.binarySearchWith i32 stamp expiryTime =
      if l = [] ∨ expiryTime < l[0]?.elim 0 stamp then some (-1)
      else (i32 (lastExpired stamp l expiryTime + q.head)).bind fun sum =>
        (i32 (sum + q.size)).bind fun sum => some (sum.tmod q.size) := by
  have hh := h.head_lt
  have hle := h.length_le
  have hfirst := h.lastUsed_eq stamp (k := 0) (by omega)
  rw [Nat.zero_add, Nat.mod_eq_of_lt hh] at hfirst
  by_cases hempty : l = []
  · simp [binarySearchWith, h.isEmpty_iff.mpr hempty, hempty]
  · have hpos := List.length_pos_iff.mpr hempty
    have hread : q.readLastUsed stamp q.head = some (l[0]?.elim 0 stamp) := by
      rw [readLastUsed, h.size_eq, if_pos hh, hfirst]
    have hprobe : ∀ i : ℤ, 0 ≤ i → i ≤ (l.length - 1 : ℕ) →
        ((q.readLastUsed stamp ((i.toNat + q.head) % q.size)).map fun last =>
          decide (expiryTime < last)) = some (decide (expiryTime < l[i.toNat]?.elim 0 stamp)) := by
      intro i hi hir
      rw [readLastUsed, h.size_eq, if_pos (Nat.mod_lt _ (by omega)),
        h.lastUsed_eq stamp (by omega)]
      rfl
    have hloop := CheckedI32.bisect_eq_some 0 (l.length - 1 : ℕ) le_rfl (by omega) hprobe
    have hcast : i32 ((l.length - 1 : ℕ) : ℤ) = some ((l.length - 1 : ℕ) : ℤ) :=
      hi32 _ (by unfold fits; omega)
    have hbase : i32 (q.head : ℤ) = some (q.head : ℤ) := hi32 _ (by unfold fits; omega)
    have hn : i32 (q.size : ℤ) = some (q.size : ℤ) := hi32 _ (by unfold fits; omega)
    simp only [binarySearchWith, mt h.isEmpty_iff.mp hempty, if_false, hread, h.size_eq, hempty,
      false_or, h.mapped_tail hpos, Option.bind_eq_bind, Option.bind_some, Bool.false_eq_true,
      hcast]
    by_cases hearly : expiryTime < l[0]?.elim 0 stamp
    · rw [if_pos hearly, if_pos hearly]
    · rw [hloop]
      simp only [if_neg hearly, Option.bind_some, hbase, hn]
      rw [lastExpired, Int.ofNat_sub hpos, Int.natCast_one]

theorem binarySearchI32_eq (h : q.Represents l) (hsize : q.size ≤ 2147483647) (expiryTime : ℤ) :
    q.binarySearchI32 stamp expiryTime =
      if l = [] ∨ expiryTime < l[0]?.elim 0 stamp then some (-1)
      else if lastExpired stamp l expiryTime + q.head + q.size ≤ 2147483647 then
        some (q.binarySearch stamp expiryTime)
      else none := by
  rw [binarySearchI32, binarySearchWith_eq (fun _ => check_of_fits) h hsize,
    binarySearch_eq stamp h]
  split_ifs with hearly hle
  · rfl
  all_goals
    obtain ⟨hempty, hlate⟩ := not_or.mp hearly
    have hnonneg := lastExpired_nonneg hempty hlate
    rw [← Option.bind_assoc, check_bind_add (by omega) (by omega)]
  · rw [if_pos hle]
    rfl
  · rw [if_neg hle]
    rfl

/-- Where three times the size is in range every build searches alike. -/
theorem binarySearchWith_of_le {i32 : ℤ → Option ℤ} (hi32 : ∀ z, fits z → i32 z = some z)
    (h : q.Represents l) (hsize : q.size ≤ 715827883) (expiryTime : ℤ) :
    q.binarySearchWith i32 stamp expiryTime = some (q.binarySearch stamp expiryTime) := by
  have hh := h.head_lt
  have hle := h.length_le
  rw [binarySearchWith_eq hi32 h (by omega), binarySearch_eq stamp h]
  split_ifs with hearly
  · rfl
  · obtain ⟨hempty, hlate⟩ := not_or.mp hearly
    have hnonneg := lastExpired_nonneg hempty hlate
    have hlt := lastExpired_lt stamp l expiryTime
    rw [hi32 _ (by unfold fits; omega), Option.bind_some, hi32 _ (by unfold fits; omega)]
    rfl

theorem refreshWith_of_le {i32 : ℤ → Option ℤ} (hi32 : ∀ z, fits z → i32 z = some z)
    (h : q.Represents l) (hsize : q.size ≤ 715827883) (now duration : ℤ) :
    q.refreshWith i32 stamp now duration = some (q.refresh stamp now duration) := by
  have hh := h.head_lt
  simp only [refreshWith, binarySearchWith_of_le hi32 h hsize, Option.bind_eq_bind,
    Option.bind_some, refresh, h.size_eq]
  rcases binarySearch_cases stamp h (now - duration) with hnone | ⟨m, hm, hsome⟩
  · rw [if_pos hnone, if_pos hnone]
  · have := Nat.mod_lt (q.head + m) (by omega : 0 < q.size)
    have hne : q.binarySearch stamp (now - duration) ≠ -1 := by omega
    have hslice : 0 ≤ q.binarySearch stamp (now - duration) ∧
        q.binarySearch stamp (now - duration) < q.size ∧ q.head ≤ q.size := by omega
    rw [if_neg hne, if_neg hne, if_pos hslice]

/-- A search that is not cut short by an overflow is the exact one. -/
theorem searchInRange_of_le (h : q.Represents l) (hsize : q.size ≤ 2147483647) {expiryTime : ℤ}
    (hle : lastExpired stamp l expiryTime + q.head + q.size ≤ 2147483647) :
    q.searchInRange stamp expiryTime := by
  have hh := h.head_lt
  refine ⟨q.binarySearch stamp expiryTime, ?_, ?_⟩
  · rw [binarySearchI32_eq h hsize]
    split_ifs with hearly
    · rw [binarySearch_eq stamp h, if_pos hearly]
    · rfl
  · rcases binarySearch_cases stamp h expiryTime with hnone | ⟨m, hm, hsome⟩
    · exact .inl hnone
    · have := Nat.mod_lt (q.head + m) (by omega : 0 < q.size)
      omega

theorem refreshI32_isSome (h : q.Represents l) {now duration : ℤ}
    (hin : q.searchInRange stamp (now - duration)) :
    (q.refreshI32 stamp now duration).isSome = true := by
  obtain ⟨index, hindex, hrange⟩ := hin
  have hh := h.head_lt
  rw [binarySearchI32] at hindex
  simp only [refreshI32, refreshWith, hindex, Option.bind_eq_bind, Option.bind_some]
  split_ifs with hnone hslice
  · rfl
  · rfl
  · rw [h.size_eq] at hslice
    omega

/-- A search that does not overflow is in range. -/
theorem searchInRange_or_overflow (h : q.Represents l) (hsize : q.size ≤ 2147483647)
    (expiryTime : ℤ) :
    q.searchInRange stamp expiryTime ∨ q.binarySearchI32 stamp expiryTime = none := by
  by_cases hle : lastExpired stamp l expiryTime + q.head + q.size ≤ 2147483647
  · exact .inl (searchInRange_of_le h hsize hle)
  · rw [searchInRange, binarySearchI32_eq h hsize, if_neg hle]
    split_ifs with hearly
    · exact .inl ⟨-1, rfl, .inl rfl⟩
    · exact .inr rfl

/-- In a ring filled in the order of last use the number of expired workers, the
rotation and the size decide. -/
theorem searchInRange_iff (h : q.Represents l) (hsize : q.size ≤ 2147483647)
    (hsorted : l.Pairwise fun v w => stamp v ≤ stamp w) (expiryTime : ℤ) :
    q.searchInRange stamp expiryTime ↔
      upTo stamp expiryTime l = 0 ∨
        upTo stamp expiryTime l + q.head + q.size ≤ 2147483648 := by
  have hlast : lastExpired stamp l expiryTime = upTo stamp expiryTime l - 1 :=
    bisect_stamps hsorted expiryTime
  constructor
  · rintro ⟨index, hindex, -⟩
    rw [binarySearchI32_eq h hsize] at hindex
    split_ifs at hindex with hearly hfits
    · left
      rcases binarySearch_of_sorted h hsorted expiryTime with ⟨hz, -⟩ | ⟨m, -, hsome⟩
      · exact hz
      · rw [binarySearch_eq stamp h, if_pos hearly] at hsome
        omega
    · omega
  · rintro (hz | hle)
    · refine ⟨-1, ?_, .inl rfl⟩
      rw [binarySearchI32_eq h hsize, if_pos]
      cases hl : l with
      | nil => exact .inl rfl
      | cons a r =>
          rw [hl] at hz
          exact .inr (upTo_eq_zero.mp hz a List.mem_cons_self)
    · exact searchInRange_of_le h hsize (by omega)

/-! ## The ring that is hardest to search -/

theorem exec_append (q : LoopQueue W) (ops ops' : List (Op W)) :
    (q.exec (ops ++ ops')).2 = ((q.exec ops).2.exec ops').2 := by
  induction ops generalizing q with
  | nil => rfl
  | cons op ops ih => exact ih _

theorem insert_head {q q' : LoopQueue W} {w : W} (h : q.insert w = .ok q') : q'.head = q.head := by
  unfold insert at h
  split at h
  · cases h
  · cases h
    rfl

theorem insert_of_lt (h : q.Represents l) (w : W) (hlt : l.length < q.size) :
    (q.apply (.insert w)).2.Represents (l ++ [w]) ∧ (q.apply (.insert w)).2.size = q.size ∧
      (q.apply (.insert w)).2.head = q.head := by
  cases hw : q.insert w with
  | ok q' =>
      obtain ⟨hrep, hsize, _⟩ := insert_represents h hw
      simp only [apply, hw]
      exact ⟨hrep, hsize, insert_head hw⟩
  | error e =>
      have hfull : q.isFull = true := by
        unfold insert at hw
        split at hw
        · assumption
        · cases hw
      have := h.full_iff.mp hfull
      omega

/-- A worker that goes in and out of an empty ring moves the head on by one. -/
theorem exec_cycle (w : W) (k : ℕ) {q : LoopQueue W} (h : q.Represents [])
    (hk : q.head + k < q.size) :
    (q.exec (List.replicate k [.insert w, .detach]).flatten).2.Represents [] ∧
      (q.exec (List.replicate k [.insert w, .detach]).flatten).2.size = q.size ∧
      (q.exec (List.replicate k [.insert w, .detach]).flatten).2.head = q.head + k := by
  induction k generalizing q with
  | zero => exact ⟨h, rfl, rfl⟩
  | succ k ih =>
      obtain ⟨hin, hinSize, hinHead⟩ := insert_of_lt h w (by simp only [List.length_nil]; omega)
      obtain ⟨_, hout, houtSize⟩ := detach_represents_cons hin
      have houtHead : ((q.apply (.insert w)).2.detach).2.head = q.head + 1 := by
        have hne : ¬ (q.apply (.insert w)).2.isEmpty = true := by
          rw [hin.isEmpty_iff]
          simp
        rw [detach, if_neg hne]
        simp only [hinHead, hinSize]
        exact Nat.mod_eq_of_lt (by omega)
      obtain ⟨hrep, hsize, hhead⟩ := ih hout (by omega)
      rw [List.replicate_succ, List.flatten_cons, exec_append]
      refine ⟨hrep, ?_, ?_⟩
      · exact hsize.trans (houtSize.trans hinSize)
      · exact hhead.trans (by omega)

theorem exec_fill (w : W) (k : ℕ) {q : LoopQueue W} {l : List W} (h : q.Represents l)
    (hk : l.length + k ≤ q.size) :
    (q.exec (List.replicate k (.insert w))).2.Represents (l ++ List.replicate k w) ∧
      (q.exec (List.replicate k (.insert w))).2.size = q.size ∧
      (q.exec (List.replicate k (.insert w))).2.head = q.head := by
  induction k generalizing q l with
  | zero =>
      rw [List.replicate_zero, List.replicate_zero, List.append_nil]
      exact ⟨h, rfl, rfl⟩
  | succ k ih =>
      obtain ⟨hin, hinSize, hinHead⟩ := insert_of_lt h w (by omega)
      obtain ⟨hrep, hsize, hhead⟩ := ih hin (by
        rw [hinSize, List.length_append, List.length_singleton]
        omega)
      rw [List.append_assoc, List.singleton_append] at hrep
      exact ⟨hrep, hsize.trans hinSize, hhead.trans hinHead⟩

/-- Rotate the head to the last slot, then fill the ring. -/
def rotateAndFill (w : W) (n : ℕ) : List (Op W) :=
  (List.replicate (n - 1) [Op.insert w, Op.detach]).flatten ++ List.replicate n (.insert w)

theorem rotateAndFill_spec (w : W) {size : ℤ} {q₀ : LoopQueue W} (hnew : new size = some q₀) :
    (q₀.exec (rotateAndFill w size.toNat)).2.Represents (List.replicate size.toNat w) ∧
      (q₀.exec (rotateAndFill w size.toNat)).2.size = size.toNat ∧
      (q₀.exec (rotateAndFill w size.toNat)).2.head = size.toNat - 1 := by
  obtain ⟨hrep, hsize⟩ := new_represents hnew
  have hpos := hrep.head_lt
  have hhead : q₀.head = 0 := by
    unfold new at hnew
    split at hnew
    · cases hnew
    · cases hnew
      rfl
  obtain ⟨hcycle, hcycleSize, hcycleHead⟩ := exec_cycle w (size.toNat - 1) hrep (by omega)
  obtain ⟨hfill, hfillSize, hfillHead⟩ := exec_fill w size.toNat hcycle (by
    rw [List.length_nil]
    omega)
  rw [rotateAndFill, exec_append]
  exact ⟨hfill, by omega, by omega⟩

/-- With everything expired, the last position, the last slot and the size add up. -/
theorem overflow_of_large (w : W) {size : ℤ} (hmax : size ≤ 2147483647)
    (hlarge : 715827883 < size) {q₀ : LoopQueue W} (hnew : new size = some q₀) :
    (q₀.exec (rotateAndFill w size.toNat)).2.binarySearchI32 (fun _ => 0) 0 = none := by
  obtain ⟨hrep, hsize, hhead⟩ := rotateAndFill_spec w hnew
  have hcount : upTo (fun _ => 0) 0 (List.replicate size.toNat w) = size.toNat := by
    simp [upTo, List.countP_replicate]
  have hout : ¬ (q₀.exec (rotateAndFill w size.toNat)).2.searchInRange (fun _ => 0) 0 := by
    rw [searchInRange_iff hrep (by omega) (by simp [List.pairwise_replicate]), hcount]
    omega
  exact (searchInRange_or_overflow hrep (by omega) 0).resolve_left hout

/-- The search and the refresh of a ring of positive `i32` size stay in range, for
every sequence of operations, all stamps and every expiry time, just when three
times the size does. -/
theorem search_in_range_iff [Inhabited W] {size : ℤ} (hpos : 0 < size)
    (hmax : size ≤ 2147483647) :
    (∀ q₀ : LoopQueue W, new size = some q₀ → ∀ ops : List (Op W), ∀ stamp : W → ℤ,
      (∀ expiryTime, (q₀.exec ops).2.searchInRange stamp expiryTime) ∧
      ∀ now duration, ((q₀.exec ops).2.refreshI32 stamp now duration).isSome = true) ↔
    size ≤ 715827883 := by
  obtain ⟨q₀, hnew⟩ : ∃ q₀ : LoopQueue W, new size = some q₀ := by
    simp [new, show ¬ size ≤ 0 by omega]
  constructor
  · intro hall
    by_contra hlarge
    have hover := overflow_of_large default hmax (by omega) hnew
    obtain ⟨index, hindex, _⟩ := (hall q₀ hnew _ _).1 0
    rw [hover] at hindex
    cases hindex
  · intro hsmall q₁ hnew₁ ops stamp
    obtain ⟨hrep, hsize⟩ := new_represents hnew₁
    obtain ⟨l, _, hfin, hfsize⟩ := exec_refines hrep ops
    have hsearch (expiryTime : ℤ) : (q₁.exec ops).2.searchInRange stamp expiryTime := by
      have hh := hfin.head_lt
      have hlen := hfin.length_le
      have hlast := lastExpired_lt stamp l expiryTime
      exact searchInRange_of_le hfin (by omega) (by omega)
    exact ⟨hsearch, fun now duration => refreshI32_isSome hfin (hsearch (now - duration))⟩

theorem search_in_range_iff_three :
    (∀ q₀ : LoopQueue ℕ, new 3 = some q₀ → ∀ ops : List (Op ℕ), ∀ stamp : ℕ → ℤ,
      (∀ expiryTime, (q₀.exec ops).2.searchInRange stamp expiryTime) ∧
      ∀ now duration, ((q₀.exec ops).2.refreshI32 stamp now duration).isSome = true) ↔
    (3 : ℤ) ≤ 715827883 :=
  search_in_range_iff (by decide) (by decide)

/-- The smallest ring that fails: full, its head in the last slot, all expired. -/
theorem search_overflows : ∃ q₀ : LoopQueue ℕ, new 715827884 = some q₀ ∧ ∃ ops stamp,
    (q₀.exec ops).2.binarySearchI32 stamp 0 = none ∧
      (q₀.exec ops).2.refreshI32 stamp 0 0 = none := by
  obtain ⟨q₀, hnew⟩ : ∃ q₀ : LoopQueue ℕ, new 715827884 = some q₀ := ⟨_, if_neg (by decide)⟩
  have hover := overflow_of_large 0 (by decide) (by decide) hnew
  refine ⟨q₀, hnew, _, _, hover, ?_⟩
  rw [binarySearchI32] at hover
  rw [refreshI32, refreshWith, sub_self, hover]
  rfl

end LoopQueue

namespace WorkerStack
variable {W : Type}

/-- `binary_search` with its `i32` arithmetic; `none` is an overflow or a bad index. -/
def binarySearchI32 (stamp : W → ℤ) (q : WorkerStack W) (l r expiryTime : ℤ) : Option ℤ :=
  CheckedI32.bisect (fun mid =>
    q.items[mid.toNat]?.map fun worker => expiryTime < stamp worker) l r

/-- A stack that `i32` can count is searched without an overflow. -/
theorem binarySearchI32_eq (stamp : W → ℤ) (q : WorkerStack W) (hlen : q.len ≤ 2147483647)
    (expiryTime : ℤ) :
    q.binarySearchI32 stamp 0 (q.len - 1) expiryTime =
      some (q.binarySearch stamp 0 (q.len - 1) expiryTime) := by
  apply CheckedI32.bisect_eq_some
  · exact le_rfl
  · omega
  · intro i hi hir
    rw [len] at hir
    rw [List.getElem?_eq_getElem (by omega)]
    rfl

end WorkerStack

end AntsPool
