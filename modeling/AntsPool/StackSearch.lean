import AntsPool.SearchRange

/-!
# The search of the stack in a part of it

`binary_search` takes the range to search, although its only caller passes the whole
stack. When nothing in the range has expired the loop ends just before its left end,
which is `-1` only for a range from the bottom. The bounds are `i32`, and the left one
moves one past a worker that has expired.
-/
namespace AntsPool.WorkerStack
open StampOrder

variable {W : Type}

/-- `binary_search` in `i32`, with the indices that it reads; `none` is an overflow or a
bad index. -/
def binarySearchReads (stamp : W → ℤ) (q : WorkerStack W) (l r expiryTime : ℤ) :
    List ℤ × Option ℤ :=
  CheckedI32.bisectReads (fun mid =>
    q.items[mid.toNat]?.map fun worker => expiryTime < stamp worker) l r

/-- Whether the worker at an index was last used at or before `expiryTime`. -/
def expired (stamp : W → ℤ) (q : WorkerStack W) (expiryTime index : ℤ) : Bool :=
  q.items[index.toNat]?.any fun worker => stamp worker ≤ expiryTime

/-- The largest expired index of the range, or `-1` when it has none. -/
def IsLastExpired (stamp : W → ℤ) (q : WorkerStack W) (l r expiryTime index : ℤ) : Prop :=
  (l ≤ index ∧ index ≤ r ∧ q.expired stamp expiryTime index = true ∧
    ∀ j, index < j → j ≤ r → q.expired stamp expiryTime j = false) ∨
  (index = -1 ∧ ∀ j, l ≤ j → j ≤ r → q.expired stamp expiryTime j = false)

/-- What a search of a range promises: it reads indices of the range only, in no more
rounds than it has, and returns the last expired one. -/
structure RangeContract (stamp : W → ℤ) (q : WorkerStack W) (l r expiryTime : ℤ) : Prop where
  reads : ∀ i ∈ (q.binarySearchReads stamp l r expiryTime).1, l ≤ i ∧ i ≤ r
  rounds : (q.binarySearchReads stamp l r expiryTime).1.length ≤ (r + 1 - l).toNat
  answer : ∃ index, (q.binarySearchReads stamp l r expiryTime).2 = some index ∧
    q.IsLastExpired stamp l r expiryTime index

theorem binarySearchReads_snd (stamp : W → ℤ) (q : WorkerStack W) (l r expiryTime : ℤ) :
    (q.binarySearchReads stamp l r expiryTime).2 = q.binarySearchI32 stamp l r expiryTime :=
  CheckedI32.bisectReads_snd _ l r

section Sorted
variable {stamp : W → ℤ} {q : WorkerStack W} {l r : ℤ} (expiryTime : ℤ)

/-- On a sorted stack the expired indices are the first ones. -/
theorem expired_iff (hsorted : q.items.Pairwise fun v w => stamp v ≤ stamp w) {index : ℤ}
    (hpos : 0 ≤ index) (hlt : index < q.len) :
    q.expired stamp expiryTime index = true ↔ index < upTo stamp expiryTime q.items := by
  rw [len] at hlt
  have hget := List.getElem?_eq_getElem (l := q.items) (i := index.toNat) (by omega)
  have hearly := le_iff_lt_upTo (e := expiryTime) hsorted hget
  rw [expired, hget, Option.any_some, decide_eq_true_eq, hearly]
  omega

theorem not_expired_iff (hsorted : q.items.Pairwise fun v w => stamp v ≤ stamp w) {index : ℤ}
    (hpos : 0 ≤ index) (hlt : index < q.len) :
    q.expired stamp expiryTime index = false ↔ upTo stamp expiryTime q.items ≤ index := by
  rw [← Bool.not_eq_true, expired_iff expiryTime hsorted hpos hlt, not_lt]

/-- The left bound can not pass the last `i32` when the range ends before it, or with a worker
that has not expired. -/
theorem not_overflow_iff (stamp : W → ℤ) (q : WorkerStack W) (hmax : r ≤ 2147483647) :
    ¬ (r = 2147483647 ∧ q.expired stamp expiryTime r = true) ↔
      r < 2147483647 ∨ q.expired stamp expiryTime r = false := by
  rw [not_and_or, Bool.not_eq_true, hmax.lt_iff_ne]

/-- What the loop probes at an index of the stack. -/
theorem probe_eq {index : ℤ} (hpos : 0 ≤ index) (hlt : index < q.len) :
    (q.items[index.toNat]?.map fun worker => decide (expiryTime < stamp worker)) =
      some (!q.expired stamp expiryTime index) := by
  rw [len] at hlt
  have hget := List.getElem?_eq_getElem (l := q.items) (i := index.toNat) (by omega)
  rw [expired, hget, Option.map_some, Option.any_some, ← decide_not]
  simp only [not_le]

/-- The search overflows when the range ends with the last `i32` and an expired worker. Else
it ends at the last expired index, or just before the range. -/
theorem binarySearchI32_of_sorted (hsorted : q.items.Pairwise fun v w => stamp v ≤ stamp w)
    (hl : 0 ≤ l) (hlr : l ≤ r) (hr : r < q.len) (hmax : r ≤ 2147483647) :
    q.binarySearchI32 stamp l r expiryTime =
      if r = 2147483647 ∧ q.expired stamp expiryTime r = true then none
      else some (max l (min (upTo stamp expiryTime q.items) (r + 1)) - 1) := by
  have hprobe : ∀ i, l ≤ i → i ≤ r →
      (q.items[i.toNat]?.map fun worker => decide (expiryTime < stamp worker)) =
        some (!q.expired stamp expiryTime i) := fun i hi hir =>
      probe_eq expiryTime (by omega) (by omega)
  split_ifs with hover
  · obtain ⟨rfl, hlast⟩ := hover
    rw [expired_iff expiryTime hsorted (by omega) hr] at hlast
    refine CheckedI32.bisect_eq_none l _ hl hlr rfl fun i hi hir => ?_
    rw [hprobe i hi hir, (expired_iff expiryTime hsorted (by omega) (by omega)).mpr (by omega)]
    rfl
  · rw [binarySearchI32, CheckedI32.bisect_eq_some_of_late l r hl hmax ?_ hprobe]
    · congr 1
      apply Bisection.bisect_eq
      · omega
      · omega
      · intro i hi hir
        rw [Bool.not_eq_true', not_expired_iff expiryTime hsorted (by omega) (by omega)]
        omega
    · rw [Bool.not_eq_true']
      exact (not_overflow_iff expiryTime stamp q hmax).mp hover

/-- Nothing in the range has expired when the first worker of it has not. -/
theorem not_expired_of_first (hsorted : q.items.Pairwise fun v w => stamp v ≤ stamp w)
    (hl : 0 ≤ l) (hr : r < q.len) (hfirst : q.expired stamp expiryTime l = false) (j : ℤ)
    (hj : l ≤ j) (hjr : j ≤ r) : q.expired stamp expiryTime j = false := by
  rw [not_expired_iff expiryTime hsorted (by omega) (by omega)] at hfirst ⊢
  omega

/-- On a sorted stack and for a range of it, the search keeps its promise just when the range
starts at the bottom or its first worker has expired, and its end is not the last `i32` or the
worker there has not expired. -/
theorem range_contract_iff (hsorted : q.items.Pairwise fun v w => stamp v ≤ stamp w)
    (hl : 0 ≤ l) (hlr : l ≤ r) (hr : r < q.len) (hmax : r ≤ 2147483647) :
    q.RangeContract stamp l r expiryTime ↔
      (l = 0 ∨ q.expired stamp expiryTime l = true) ∧
        (r < 2147483647 ∨ q.expired stamp expiryTime r = false) := by
  have hanswer := binarySearchI32_of_sorted expiryTime hsorted hl hlr hr hmax
  have hcut (i : ℤ) (hi : l ≤ i) (hir : i ≤ r) :
      q.expired stamp expiryTime i = true ↔ i < upTo stamp expiryTime q.items :=
    expired_iff expiryTime hsorted (by omega) (by omega)
  rw [← binarySearchReads_snd] at hanswer
  constructor
  · rintro ⟨_, _, index, hindex, hlast⟩
    rw [hanswer] at hindex
    split_ifs at hindex with hover
    cases hindex
    constructor
    · rcases hlast with ⟨hle, _⟩ | ⟨hnone, _⟩
      · exact .inr ((hcut l le_rfl hlr).mpr (by omega))
      · exact .inl (by omega)
    · exact (not_overflow_iff expiryTime stamp q hmax).mp hover
  · rintro ⟨hfirst, hend⟩
    refine ⟨CheckedI32.bisectReads_range _ l r, CheckedI32.length_bisectReads_le _ l r, _,
      hanswer.trans (if_neg ((not_overflow_iff expiryTime stamp q hmax).mpr hend)), ?_⟩
    cases hl' : q.expired stamp expiryTime l with
    | true =>
        have hup := (hcut l le_rfl hlr).mp hl'
        refine .inl ⟨by omega, by omega, (hcut _ (by omega) (by omega)).mpr (by omega), ?_⟩
        intro j hj hjr
        rw [not_expired_iff expiryTime hsorted (by omega) (by omega)]
        omega
    | false =>
        have hup := (not_expired_iff expiryTime hsorted hl (by omega)).mp hl'
        obtain rfl : l = 0 := hfirst.resolve_right (Bool.eq_false_iff.mp hl')
        exact .inr ⟨by omega, not_expired_of_first expiryTime hsorted hl hr hl'⟩

end Sorted

/-- Three workers, of which the upper two are searched and the middle one has expired. -/
theorem range_contract_iff_upper :
    (⟨[1, 2, 5]⟩ : WorkerStack ℤ).RangeContract id 1 2 3 :=
  (range_contract_iff 3 (by decide) (by decide) (by decide) (by decide) (by decide)).mpr
    ⟨.inr (by decide), .inl (by decide)⟩

/-- Neither of the upper two has expired, and the search returns the index below them. -/
theorem search_ends_below_range :
    ((⟨[1, 2, 5]⟩ : WorkerStack ℤ).binarySearchReads id 1 2 1).2 = some 0 ∧
      (∀ j, 1 ≤ j → j ≤ 2 → (⟨[1, 2, 5]⟩ : WorkerStack ℤ).expired id 1 j = false) ∧
      ¬ (⟨[1, 2, 5]⟩ : WorkerStack ℤ).RangeContract id 1 2 1 := by
  have hsorted : (⟨[1, 2, 5]⟩ : WorkerStack ℤ).items.Pairwise fun v w => id v ≤ id w := by decide
  have hanswer : ((⟨[1, 2, 5]⟩ : WorkerStack ℤ).binarySearchReads id 1 2 1).2 = some 0 := by
    rw [binarySearchReads_snd,
      binarySearchI32_of_sorted 1 hsorted (by decide) (by decide) (by decide) (by decide)]
    rfl
  refine ⟨hanswer, not_expired_of_first 1 hsorted (by decide) (by decide) (by decide), ?_⟩
  rintro ⟨_, _, index, hindex, ⟨hle, _⟩ | ⟨hnone, _⟩⟩
  · cases hanswer.symm.trans hindex
    omega
  · cases hanswer.symm.trans hindex
    omega

end AntsPool.WorkerStack
