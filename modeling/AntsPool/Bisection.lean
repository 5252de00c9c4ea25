import Mathlib.Tactic.Linarith

/-!
# Bisection for the last position that is not late

The loop narrows an inclusive range with signed bounds that cross when it
ends. Nothing here assumes that the late positions form a suffix: the bounds of
the result hold for every test.
-/
namespace AntsPool.Bisection

/-- `while l ≤ r`, probing the midpoint; the result is the final right end. -/
def bisect (late : ℤ → Bool) (l r : ℤ) : ℤ :=
  if l ≤ r then
    let mid := l + (r - l) / 2
    if late mid then bisect late l (mid - 1) else bisect late (mid + 1) r
  else r
termination_by (r + 1 - l).toNat

/-- Only the positions of the range are probed. -/
theorem bisect_congr {late late' : ℤ → Bool} (l r : ℤ)
    (h : ∀ i, l ≤ i → i ≤ r → late i = late' i) : bisect late l r = bisect late' l r := by
  fun_induction bisect late l r with
  | case1 l r hlr mid hlate ih =>
      have hlate' : late' mid = true := h mid (by omega) (by omega) ▸ hlate
      rw [ih fun i hi hir => h i hi (by omega), bisect.eq_def late' l r, if_pos hlr]
      exact (if_pos hlate').symm
  | case2 l r hlr mid hlate ih =>
      have hlate' : ¬ late' mid = true := h mid (by omega) (by omega) ▸ hlate
      rw [ih fun i hi hir => h i (by omega) hir, bisect.eq_def late' l r, if_pos hlr]
      exact (if_neg hlate').symm
  | case3 l r hlr => rw [bisect, if_neg hlr]

theorem bisect_le (late : ℤ → Bool) (l r : ℤ) : bisect late l r ≤ r := by
  fun_induction bisect late l r with
  | case1 l r hlr mid hlate ih => omega
  | case2 l r hlr mid hlate ih => exact ih
  | case3 l r hlr => exact le_rfl

theorem le_bisect (late : ℤ → Bool) (l r : ℤ) (hlr : l ≤ r + 1) : l - 1 ≤ bisect late l r := by
  fun_induction bisect late l r with
  | case1 l r h mid hlate ih => exact ih (by omega)
  | case2 l r h mid hlate ih =>
      have := ih (by omega)
      omega
  | case3 l r h => omega

/-- When the left end itself is not late, the search never moves past it. -/
theorem le_bisect_of_early (late : ℤ → Bool) (l r : ℤ) (hlr : l ≤ r) (hl : late l = false) :
    l ≤ bisect late l r := by
  fun_induction bisect late l r with
  | case1 l r h mid hlate ih =>
      have hne : mid ≠ l := by
        rintro heq
        rw [heq, hl] at hlate
        cases hlate
      exact ih (by omega) hl
  | case2 l r h mid hlate ih =>
      have := le_bisect late (mid + 1) r (by omega)
      omega
  | case3 l r h => exact (h hlr).elim

/-- Positions from `k` on that are all late are never passed. -/
theorem bisect_lt_of_late (late : ℤ → Bool) (l r k : ℤ) (hl : l ≤ k)
    (hlate : ∀ i, k ≤ i → i ≤ r → late i = true) : bisect late l r < k := by
  fun_induction bisect late l r with
  | case1 l r h mid hmid ih => exact ih hl fun i hk hi => hlate i hk (by omega)
  | case2 l r h mid hmid ih =>
      have hlt : mid < k := by
        by_contra hle
        exact hmid (hlate mid (by omega) (by omega))
      exact ih (by omega) hlate
  | case3 l r h => omega

/-- When exactly the positions below `k` are early, the result is the last of them. -/
theorem bisect_eq (late : ℤ → Bool) (l r k : ℤ) (hl : l ≤ k) (hr : k ≤ r + 1)
    (hlate : ∀ i, l ≤ i → i ≤ r → (late i = true ↔ k ≤ i)) : bisect late l r = k - 1 := by
  fun_induction bisect late l r with
  | case1 l r h mid hmid ih =>
      have hle := (hlate mid (by omega) (by omega)).mp hmid
      exact ih hl (by omega) fun i hi hir => hlate i hi (by omega)
  | case2 l r h mid hmid ih =>
      have hlt := mt (hlate mid (by omega) (by omega)).mpr hmid
      exact ih (by omega) hr fun i hi hir => hlate i (by omega) hir
  | case3 l r h => omega

end AntsPool.Bisection
