import Mathlib.Algebra.BigOperators.Group.List.Basic
import Mathlib.Algebra.Order.BigOperators.Group.List
import Mathlib.Tactic.Linarith

/-!
# Integer totals over a list

The weight of a list is the integer sum of the weights of its elements. One
position is replaced and elements are appended; nothing is ever removed. The
lemmas say how a total moves under these two operations and what a total of
nonnegative weights says about single positions.
-/
namespace AntsPool.ListTotals

variable {α : Type*}

def total (f : α → ℤ) (l : List α) : ℤ := (l.map f).sum

@[simp] theorem total_nil (f : α → ℤ) : total f [] = 0 := rfl

@[simp] theorem total_cons (f : α → ℤ) (a : α) (l : List α) :
    total f (a :: l) = f a + total f l := by simp [total]

@[simp] theorem total_append (f : α → ℤ) (l m : List α) :
    total f (l ++ m) = total f l + total f m := by simp [total]

/-- Replacing one element moves the total by the difference of the weights. -/
theorem total_set (f : α → ℤ) {l : List α} {i : ℕ} {a : α} (h : l[i]? = some a) (b : α) :
    total f (l.set i b) + f a = total f l + f b := by
  induction l generalizing i with
  | nil => simp at h
  | cons x l ih =>
      cases i with
      | zero =>
          simp only [List.getElem?_cons_zero, Option.some.injEq] at h
          subst h
          simp only [List.set_cons_zero, total_cons]
          omega
      | succ i =>
          have ht := ih (by simpa only [List.getElem?_cons_succ] using h)
          simp only [List.set_cons_succ, total_cons]
          omega

theorem total_nonneg {f : α → ℤ} {l : List α} (hf : ∀ a ∈ l, 0 ≤ f a) : 0 ≤ total f l := by
  apply List.sum_nonneg
  simpa only [List.forall_mem_map] using hf

theorem total_congr {f g : α → ℤ} {l : List α} (h : ∀ a ∈ l, f a = g a) :
    total f l = total g l := by
  unfold total
  rw [List.map_congr_left h]

theorem total_eq_zero {f : α → ℤ} {l : List α} (h : ∀ a ∈ l, f a = 0) : total f l = 0 := by
  induction l with
  | nil => rfl
  | cons a l ih =>
      rw [total_cons, h a List.mem_cons_self, zero_add]
      exact ih fun b hb => h b (List.mem_cons_of_mem a hb)

theorem total_add (f g : α → ℤ) (l : List α) :
    total (fun a => f a + g a) l = total f l + total g l := by
  induction l with
  | nil => rfl
  | cons a l ih =>
      simp only [total_cons, ih]
      omega

theorem total_neg (f : α → ℤ) (l : List α) : total (fun a => -f a) l = -total f l := by
  induction l with
  | nil => rfl
  | cons a l ih =>
      simp only [total_cons, ih]
      omega

theorem total_indicator (p : α → Bool) (l : List α) :
    total (fun a => if p a then 1 else 0) l = l.countP p := by
  induction l with
  | nil => rfl
  | cons a l ih =>
      simp only [total_cons, ih, List.countP_cons]
      split <;> push_cast <;> omega

/-- A nonnegative weight at one position is at most the total. -/
theorem le_total {f : α → ℤ} (hf : ∀ a, 0 ≤ f a) {l : List α} {a : α} (h : a ∈ l) :
    f a ≤ total f l := by
  induction l with
  | nil => simp at h
  | cons x l ih =>
      have hl := total_nonneg (l := l) fun a _ => hf a
      have hx := hf x
      simp only [total_cons]
      rcases List.mem_cons.mp h with rfl | h
      · omega
      · have := ih h
        omega

/-- Two different positions are counted separately. -/
theorem add_le_total {f : α → ℤ} (hf : ∀ a, 0 ≤ f a) {l : List α} {i j : ℕ} {a b : α}
    (hij : i ≠ j) (hi : l[i]? = some a) (hj : l[j]? = some b) : f a + f b ≤ total f l := by
  induction l generalizing i j with
  | nil => simp at hi
  | cons x l ih =>
      cases i with
      | zero =>
          cases j with
          | zero => exact (hij rfl).elim
          | succ j =>
              simp only [List.getElem?_cons_zero, Option.some.injEq] at hi
              have hb := le_total hf (List.mem_of_getElem? (by simpa using hj : l[j]? = some b))
              simp only [total_cons, hi]
              omega
      | succ i =>
          simp only [List.getElem?_cons_succ] at hi
          cases j with
          | zero =>
              simp only [List.getElem?_cons_zero, Option.some.injEq] at hj
              have ha := le_total hf (List.mem_of_getElem? hi)
              simp only [total_cons, hj]
              omega
          | succ j =>
              simp only [List.getElem?_cons_succ] at hj
              have := ih (fun h => hij (congrArg _ h)) hi hj
              have hx := hf x
              simp only [total_cons]
              omega

/-- A total with one position of weight. -/
theorem total_eq_single {f : α → ℤ} {l : List α} {i : ℕ} {a : α} (hi : l[i]? = some a)
    (hne : ∀ j b, j ≠ i → l[j]? = some b → f b = 0) : total f l = f a := by
  induction l generalizing i with
  | nil => simp at hi
  | cons x l ih =>
      cases i with
      | zero =>
          have hrest : total f l = total (fun _ => 0) l := by
            refine total_congr fun b hb => ?_
            obtain ⟨j, hj⟩ := List.mem_iff_getElem?.mp hb
            exact hne (j + 1) b (by omega) (by simpa using hj)
          simp only [List.getElem?_cons_zero, Option.some.injEq] at hi
          rw [total_cons, hrest, hi]
          simp [total]
      | succ i =>
          have hx := hne 0 x (by omega) (by simp)
          have htail := ih (by simpa using hi) fun j b hj hb =>
            hne (j + 1) b (by omega) (by simpa using hb)
          simp only [total_cons]
          omega

/-- Distinct labels, each carried by some element that satisfies `p`, are at most as
many as these elements. -/
theorem length_le_countP {β : Type*} {l : List α} (hl : l.Nodup) {p : β → Bool}
    {f : β → Option α} {m : List β}
    (h : ∀ a ∈ l, ∃ b ∈ m, p b = true ∧ f b = some a) : l.length ≤ m.countP p := by
  have hsub : l ⊆ (m.filter p).filterMap f := by
    intro a ha
    obtain ⟨b, hb, hp, hlabel⟩ := h a ha
    exact List.mem_filterMap.mpr ⟨b, List.mem_filter.mpr ⟨hb, hp⟩, hlabel⟩
  calc l.length ≤ ((m.filter p).filterMap f).length :=
        (List.subperm_of_subset hl hsub).length_le
    _ ≤ (m.filter p).length := List.length_filterMap_le _ _
    _ = m.countP p := List.countP_eq_length_filter.symm

theorem eq_of_countP_le_one {p : α → Bool} {l : List α} (h : l.countP p ≤ 1) {a b : α} (ha : a ∈ l)
    (hb : b ∈ l) (hpa : p a = true) (hpb : p b = true) : a = b := by
  have hma : a ∈ l.filter p := List.mem_filter.mpr ⟨ha, hpa⟩
  have hmb : b ∈ l.filter p := List.mem_filter.mpr ⟨hb, hpb⟩
  rw [List.countP_eq_length_filter] at h
  match hf : l.filter p with
  | [] => simp [hf] at hma
  | [c] =>
      rw [hf, List.mem_singleton] at hma hmb
      exact hma.trans hmb.symm
  | c :: d :: m => simp [hf] at h

/-- Elements with distinct keys, each the key of one that satisfies `q`, are at most as
many as these. -/
theorem countP_le_of_key {κ : Type*} [DecidableEq κ] {l : List α} {p q : α → Bool} {f : α → κ}
    (hp : ∀ a ∈ l, p a = true → l.countP (fun b => (f b == f a) && p b) ≤ 1)
    (h : ∀ a ∈ l, p a = true → ∃ b ∈ l, q b = true ∧ f b = f a) : l.countP p ≤ l.countP q := by
  have hnodup : ((l.filter p).map f).Nodup := by
    refine List.nodup_iff_count.mpr fun k => ?_
    by_cases hk : k ∈ (l.filter p).map f
    · obtain ⟨a, ha, rfl⟩ := List.mem_map.mp hk
      obtain ⟨ha, hpa⟩ := List.mem_filter.mp ha
      rw [List.count, List.countP_map, List.countP_filter]
      exact hp a ha hpa
    · rw [List.count_eq_zero.mpr hk]
      exact Nat.zero_le 1
  have hle := length_le_countP hnodup (p := q) (m := l) (f := fun b => some (f b)) ?_
  · rwa [List.length_map, ← List.countP_eq_length_filter] at hle
  · intro k hk
    obtain ⟨a, ha, rfl⟩ := List.mem_map.mp hk
    obtain ⟨ha, hpa⟩ := List.mem_filter.mp ha
    obtain ⟨b, hb, hqb, hkey⟩ := h a ha hpa
    exact ⟨b, hb, hqb, congrArg some hkey⟩

/-- Those that satisfy `p` are counted with `q` and without. -/
theorem countP_and_not {p q : α → Bool} (l : List α) (h : ∀ a ∈ l, q a = true → p a = true) :
    l.countP (fun a => p a && !q a) + l.countP q = l.countP p := by
  induction l with
  | nil => rfl
  | cons a l ih =>
      have ih := ih fun b hb => h b (List.mem_cons_of_mem a hb)
      have ha := h a List.mem_cons_self
      simp only [List.countP_cons]
      cases hp : p a <;> cases hq : q a <;> simp_all <;> omega

end AntsPool.ListTotals
