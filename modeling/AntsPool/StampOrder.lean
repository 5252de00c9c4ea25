import Mathlib.Data.List.Basic
import Mathlib.Data.List.Count
import Mathlib.Order.Lattice
import Mathlib.Tactic.Linarith

/-!
# Lists filled in the order of a stamp

Elements carry an integer stamp and are appended in the order of their stamps.
Whatever leaves such a list, the elements stamped no later than a cut-off are its
first ones, so a cut-off is a position.
-/
namespace AntsPool.StampOrder

variable {α : Type} {stamp : α → ℤ}

/-- The stamps do not decrease along `l`, and none is after `last`, the stamp
appended last; `none` when nothing has been appended yet. -/
structure InOrder (stamp : α → ℤ) (last : Option ℤ) (l : List α) : Prop where
  sorted : l.Pairwise fun v w => stamp v ≤ stamp w
  le_last : ∀ v ∈ l, ∃ s ∈ last, stamp v ≤ s

namespace InOrder
variable {last : Option ℤ} {l : List α}

theorem nil (stamp : α → ℤ) (last : Option ℤ) : InOrder stamp last [] where
  sorted := .nil
  le_last := by simp

theorem append (h : InOrder stamp last l) {a : α} (ha : ∀ s ∈ last, s ≤ stamp a) :
    InOrder stamp (some (stamp a)) (l ++ [a]) where
  sorted := by
    refine List.pairwise_append.mpr ⟨h.sorted, List.pairwise_singleton _ a, fun v hv w hw => ?_⟩
    obtain rfl := List.mem_singleton.mp hw
    obtain ⟨s, hs, hle⟩ := h.le_last v hv
    exact hle.trans (ha s hs)
  le_last := by
    intro v hv
    rw [List.mem_append, List.mem_singleton] at hv
    rcases hv with hv | rfl
    · obtain ⟨s, hs, hle⟩ := h.le_last v hv
      exact ⟨_, rfl, hle.trans (ha s hs)⟩
    · exact ⟨_, rfl, le_rfl⟩

theorem sublist (h : InOrder stamp last l) {m : List α} (hm : m.Sublist l) :
    InOrder stamp last m where
  sorted := h.sorted.sublist hm
  le_last v hv := h.le_last v (hm.subset hv)

/-- Stamps of elements outside the list do not matter. -/
theorem congr (h : InOrder stamp last l) {stamp' : α → ℤ} (heq : ∀ v ∈ l, stamp' v = stamp v) :
    InOrder stamp' last l where
  sorted := h.sorted.imp_of_mem fun hv hw hle => by rwa [heq _ hv, heq _ hw]
  le_last v hv := by
    rw [heq v hv]
    exact h.le_last v hv

end InOrder

/-- How many elements are stamped no later than `e`. -/
def upTo (stamp : α → ℤ) (e : ℤ) (l : List α) : ℕ := l.countP fun v => stamp v ≤ e

theorem upTo_le (stamp : α → ℤ) (e : ℤ) (l : List α) : upTo stamp e l ≤ l.length :=
  List.countP_le_length

theorem upTo_eq_zero {e : ℤ} {l : List α} : upTo stamp e l = 0 ↔ ∀ v ∈ l, e < stamp v := by
  simp [upTo, List.countP_eq_zero]

/-- In a sorted list with a late first element everything is late. -/
theorem upTo_cons_of_late {e : ℤ} {a : α} {l : List α}
    (h : (a :: l).Pairwise fun v w => stamp v ≤ stamp w) (ha : e < stamp a) :
    upTo stamp e (a :: l) = 0 := by
  refine upTo_eq_zero.mpr fun v hv => ?_
  rcases List.mem_cons.mp hv with rfl | hv
  · exact ha
  · exact ha.trans_le (List.rel_of_pairwise_cons h hv)

theorem upTo_cons_of_early {e : ℤ} {a : α} {l : List α} (ha : stamp a ≤ e) :
    upTo stamp e (a :: l) = upTo stamp e l + 1 := by
  simp [upTo, ha]

/-- The early elements of a sorted list are the ones at the first positions. -/
theorem le_iff_lt_upTo {e : ℤ} {l : List α} (h : l.Pairwise fun v w => stamp v ≤ stamp w)
    {k : ℕ} {a : α} (ha : l[k]? = some a) : stamp a ≤ e ↔ k < upTo stamp e l := by
  induction l generalizing k with
  | nil => cases ha
  | cons b l ih =>
      by_cases hb : stamp b ≤ e
      · rw [upTo_cons_of_early hb]
        cases k with
        | zero =>
            cases ha
            simp [hb]
        | succ k => simpa using ih h.of_cons ha
      · have hlate := upTo_eq_zero.mp (upTo_cons_of_late h (not_le.mp hb))
        have := hlate a (List.mem_of_getElem? ha)
        rw [upTo_eq_zero.mpr hlate]
        omega

theorem filter_le_eq_take {e : ℤ} {l : List α} (h : l.Pairwise fun v w => stamp v ≤ stamp w) :
    l.filter (fun v => stamp v ≤ e) = l.take (upTo stamp e l) := by
  induction l with
  | nil => rfl
  | cons a l ih =>
      by_cases ha : stamp a ≤ e
      · rw [upTo_cons_of_early ha, List.take_succ_cons, ← ih h.of_cons]
        simp [ha]
      · have hz := upTo_cons_of_late h (not_le.mp ha)
        rw [hz, List.take_zero]
        simpa using upTo_eq_zero.mp hz

theorem filter_gt_eq_drop {e : ℤ} {l : List α} (h : l.Pairwise fun v w => stamp v ≤ stamp w) :
    l.filter (fun v => e < stamp v) = l.drop (upTo stamp e l) := by
  induction l with
  | nil => rfl
  | cons a l ih =>
      by_cases ha : stamp a ≤ e
      · rw [upTo_cons_of_early ha, List.drop_succ_cons, ← ih h.of_cons]
        simp [ha]
      · have hz := upTo_cons_of_late h (not_le.mp ha)
        rw [hz, List.drop_zero]
        simpa using upTo_eq_zero.mp hz

end AntsPool.StampOrder
