import Mathlib.Order.Lattice

/-!
# Scanning a list for its first least element

The scan keeps the least value so far, at the start none, and the index at which it
saw it first. An element replaces it only when its value is less.
-/
namespace AntsPool.LeastScan
variable {α β : Type*} [LinearOrder β]

/-- What a scan has found among the first `k` elements. -/
def Scanned (f : α → β) (l : List α) (k : ℕ) (least : Option β) (index : ℕ) : Prop :=
  (k = 0 ∧ least = none ∧ index = 0) ∨
    ∃ h : l.take k ≠ [], least = some (f ((l.take k).minOn f h)) ∧ index = (l.take k).minIdxOn f h

variable {f : α → β} {l : List α} {k index : ℕ} {least : Option β} {a : α}

theorem Scanned.start (f : α → β) (l : List α) : Scanned f l 0 none 0 := .inl ⟨rfl, rfl, rfl⟩

private theorem take_succ_of_getElem? (h : l[k]? = some a) :
    l.take (k + 1) = l.take k ++ [a] ∧ (l.take k).length = k := by
  have hlt := (List.getElem?_eq_some_iff.mp h).1
  rw [List.take_add_one, h, List.length_take]
  exact ⟨rfl, by omega⟩

theorem Scanned.next_of_lt (h : Scanned f l k least index) (ha : l[k]? = some a)
    (hlt : ∀ b ∈ least, f a < b) : Scanned f l (k + 1) (some (f a)) k := by
  obtain ⟨htake, hlen⟩ := take_succ_of_getElem? ha
  have hcons : l.take k ++ [a] ≠ [] := List.concat_ne_nil _ _
  unfold Scanned
  simp only [htake]
  rcases h with ⟨rfl, rfl, rfl⟩ | ⟨hne, rfl, rfl⟩
  · exact .inr ⟨hcons, by simp, by simp⟩
  · have hnot : ¬ f ((l.take k).minOn f hne) ≤ f ([a].minOn f (List.cons_ne_nil _ _)) := by
      rw [List.minOn_singleton]
      exact not_le.mpr (hlt _ rfl)
    refine .inr ⟨hcons, ?_, ?_⟩
    · rw [List.minOn_append hne (List.cons_ne_nil _ _), minOn, if_neg hnot, List.minOn_singleton]
    · rw [List.minIdxOn_append hne (List.cons_ne_nil _ _), if_neg hnot, hlen,
        List.minIdxOn_singleton, Nat.add_zero]

theorem Scanned.next_of_le (h : Scanned f l k least index) (ha : l[k]? = some a)
    (hle : ∃ b ∈ least, b ≤ f a) : Scanned f l (k + 1) least index := by
  obtain ⟨htake, _⟩ := take_succ_of_getElem? ha
  have hcons : l.take k ++ [a] ≠ [] := List.concat_ne_nil _ _
  unfold Scanned
  simp only [htake]
  rcases h with ⟨rfl, rfl, rfl⟩ | ⟨hne, rfl, rfl⟩
  · simp at hle
  · have hmin : f ((l.take k).minOn f hne) ≤ f ([a].minOn f (List.cons_ne_nil _ _)) := by
      rw [List.minOn_singleton]
      simpa using hle
    refine .inr ⟨hcons, ?_, ?_⟩
    · rw [List.minOn_append hne (List.cons_ne_nil _ _), minOn, if_pos hmin]
    · rw [List.minIdxOn_append hne (List.cons_ne_nil _ _), if_pos hmin]

/-- A scan of the whole list ends with the index of the first least element. -/
theorem Scanned.finish (h : Scanned f l k least index) (hk : l.length ≤ k) (hne : l ≠ []) :
    l.minIdxOn? f = some index := by
  rcases h with ⟨rfl, _⟩ | ⟨_, _, rfl⟩
  · exact (hne (List.eq_nil_of_length_eq_zero (Nat.le_zero.mp hk))).elim
  · simp only [List.take_of_length_le hk]
    exact List.minIdxOn?_eq_some_minIdxOn hne

/-- The element at the first least index, and that it is least. -/
theorem least_of_minIdxOn? (h : l.minIdxOn? f = some k) :
    ∃ a, l[k]? = some a ∧ ∀ b ∈ l, f a ≤ f b := by
  have hne := List.ne_nil_of_minIdxOn?_eq_some h
  have hk := List.minIdxOn_eq_of_minIdxOn?_eq_some h
  obtain ⟨hlt, hle, _⟩ := (List.minIdxOn_eq_iff hne).mp hk
  refine ⟨l[k], List.getElem?_eq_getElem hlt, fun b hb => ?_⟩
  obtain ⟨j, hj, rfl⟩ := List.mem_iff_getElem.mp hb
  exact hle j hj

end AntsPool.LeastScan
