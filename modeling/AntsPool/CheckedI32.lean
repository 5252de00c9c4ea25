import AntsPool.Bisection
import AntsPool.ListTotals

/-!
# Signed 32-bit arithmetic with a check

The values an `i32` can hold, and computations that stop where a value leaves
that range. A checked computation that ends gives the exact result, and where it
does, so does the arithmetic that wraps around.
-/
namespace AntsPool.CheckedI32
open ListTotals

def fits (z : ℤ) : Prop := -2147483648 ≤ z ∧ z ≤ 2147483647

instance (z : ℤ) : Decidable (fits z) := inferInstanceAs (Decidable (_ ∧ _))

/-- An `i32` result; `none` is the overflow. -/
def check (z : ℤ) : Option ℤ := if fits z then some z else none

/-- An `i32` result of a build without the check: two's complement. -/
def wrap (z : ℤ) : ℤ := (z + 2147483648) % 4294967296 - 2147483648

theorem check_of_fits {z : ℤ} (h : fits z) : check z = some z := if_pos h

theorem check_eq_some {z y : ℤ} : check z = some y ↔ fits z ∧ z = y := by
  simp [check]

theorem wrap_of_fits {z : ℤ} (h : fits z) : wrap z = z := by
  unfold fits at h
  unfold wrap
  omega

theorem check_eq_none {z : ℤ} : check z = none ↔ ¬ fits z := by
  simp [check]

/-- Nonnegative values added in turn overflow just when the whole sum does. -/
theorem check_bind_add {a b : ℤ} (ha : 0 ≤ a) (hb : 0 ≤ b) :
    ((check a).bind fun s => check (s + b)) =
      if a + b ≤ 2147483647 then some (a + b) else none := by
  by_cases hle : a + b ≤ 2147483647
  · rw [if_pos hle, check_of_fits (by unfold fits; omega), Option.bind_some]
    exact check_of_fits (by unfold fits; omega)
  · rw [if_neg hle, Option.bind_eq_none_iff]
    intro s hs
    simp only [check, Option.ite_none_right_eq_some, Option.some.injEq] at hs
    rw [check_eq_none, ← hs.2]
    unfold fits
    omega

/-- The loop of `Bisection.bisect` in `i32`; a probe may fail. -/
def bisect (late : ℤ → Option Bool) (l r : ℤ) : Option ℤ :=
  if l ≤ r then
    let mid := l + (r - l) / 2
    if fits (r - l) ∧ fits mid then
      match late mid with
      | none => none
      | some true => if fits (mid - 1) then bisect late l (mid - 1) else none
      | some false => if fits (mid + 1) then bisect late (mid + 1) r else none
    else none
  else some r
termination_by (r + 1 - l).toNat

theorem bisect_of_late {late : ℤ → Option Bool} {l r : ℤ} (hlr : l ≤ r)
    (hfits : fits (r - l) ∧ fits (l + (r - l) / 2)) (hmid : late (l + (r - l) / 2) = some true)
    (hnext : fits (l + (r - l) / 2 - 1)) :
    bisect late l r = bisect late l (l + (r - l) / 2 - 1) := by
  rw [bisect.eq_def, if_pos hlr]
  simp only [if_pos hfits, hmid, if_pos hnext]

theorem bisect_of_early {late : ℤ → Option Bool} {l r : ℤ} (hlr : l ≤ r)
    (hfits : fits (r - l) ∧ fits (l + (r - l) / 2)) (hmid : late (l + (r - l) / 2) = some false)
    (hnext : fits (l + (r - l) / 2 + 1)) :
    bisect late l r = bisect late (l + (r - l) / 2 + 1) r := by
  rw [bisect.eq_def, if_pos hlr]
  simp only [if_pos hfits, hmid, if_pos hnext]

/-- A loop that ends without an overflow ends at the exact position. -/
theorem bisect_exact {late : ℤ → Option Bool} {late' : ℤ → Bool} {l r k : ℤ}
    (hlate : ∀ i b, late i = some b → late' i = b) (h : bisect late l r = some k) :
    Bisection.bisect late' l r = k := by
  fun_induction bisect late l r with
  | case2 l r hlr mid _ hmid _ ih =>
      rw [Bisection.bisect, if_pos hlr, if_pos (hlate _ _ hmid)]
      exact ih h
  | case4 l r hlr mid _ hmid _ ih =>
      rw [Bisection.bisect, if_pos hlr, if_neg (Bool.eq_false_iff.mp (hlate _ _ hmid))]
      exact ih h
  | case7 l r hlr =>
      rw [Bisection.bisect, if_neg hlr]
      exact Option.some.inj h
  | case1 | case3 | case5 | case6 => cases h

/-- Bounds from zero up stay in range, unless the last position of an `i32` is early. -/
theorem bisect_eq_some_of_late {late : ℤ → Option Bool} {late' : ℤ → Bool} (l r : ℤ) (hl : 0 ≤ l)
    (hr : r ≤ 2147483647) (hlast : r < 2147483647 ∨ late' r = true)
    (hlate : ∀ i, l ≤ i → i ≤ r → late i = some (late' i)) :
    bisect late l r = some (Bisection.bisect late' l r) := by
  fun_induction Bisection.bisect late' l r with
  | case1 l r hlr mid hmid ih =>
      have hprobe := hlate mid (by omega) (by omega)
      rw [hmid] at hprobe
      rw [bisect_of_late hlr (by unfold fits; omega) hprobe (by unfold fits; omega)]
      exact ih hl (by omega) (.inl (by omega)) fun i hi hir => hlate i hi (by omega)
  | case2 l r hlr mid hmid ih =>
      have hprobe := hlate mid (by omega) (by omega)
      have hnext : mid + 1 ≤ 2147483647 := by
        rcases hlast with hlt | hlast
        · omega
        · have hne : mid ≠ r := fun heq => hmid (heq ▸ hlast)
          omega
      rw [Bool.not_eq_true] at hmid
      rw [hmid] at hprobe
      rw [bisect_of_early hlr (by unfold fits; omega) hprobe (by unfold fits; omega)]
      exact ih (by omega) hr hlast fun i hi hir => hlate i (by omega) hir
  | case3 l r hlr => rw [bisect.eq_def, if_neg hlr]

/-- Bounds between zero and `i32::MAX - 1` never leave the range. -/
theorem bisect_eq_some {late : ℤ → Option Bool} {late' : ℤ → Bool} (l r : ℤ) (hl : 0 ≤ l)
    (hr : r < 2147483647) (hlate : ∀ i, l ≤ i → i ≤ r → late i = some (late' i)) :
    bisect late l r = some (Bisection.bisect late' l r) :=
  bisect_eq_some_of_late l r hl hr.le (.inl hr) hlate

/-- With every position early, the last one of an `i32` included, the left end overflows. -/
theorem bisect_eq_none {late : ℤ → Option Bool} (l r : ℤ) (hl : 0 ≤ l) (hlr : l ≤ r)
    (hr : r = 2147483647) (hearly : ∀ i, l ≤ i → i ≤ r → late i = some false) :
    bisect late l r = none := by
  fun_induction bisect late l r with
  | case1 => rfl
  | case2 l r h mid _ hmid _ ih => cases hmid.symm.trans (hearly mid (by omega) (by omega))
  | case3 => rfl
  | case4 l r h mid _ hmid hfits ih =>
      unfold fits at hfits
      exact ih (by omega) (by omega) hr fun i hi hir => hearly i (by omega) hir
  | case5 => rfl
  | case6 => rfl
  | case7 l r h => exact (h hlr).elim

/-- The loop with the positions that it reads, in that order. -/
def bisectReads (late : ℤ → Option Bool) (l r : ℤ) : List ℤ × Option ℤ :=
  if l ≤ r then
    let mid := l + (r - l) / 2
    if fits (r - l) ∧ fits mid then
      match late mid with
      | none => ([mid], none)
      | some true =>
          if fits (mid - 1) then
            let rest := bisectReads late l (mid - 1)
            (mid :: rest.1, rest.2)
          else ([mid], none)
      | some false =>
          if fits (mid + 1) then
            let rest := bisectReads late (mid + 1) r
            (mid :: rest.1, rest.2)
          else ([mid], none)
    else ([], none)
  else ([], some r)
termination_by (r + 1 - l).toNat

/-- Its result is that of the loop. -/
theorem bisectReads_snd (late : ℤ → Option Bool) (l r : ℤ) :
    (bisectReads late l r).2 = bisect late l r := by
  fun_induction bisectReads late l r with
  | case2 l r h mid hfits hmid hnext rest ih =>
      exact ih.trans (bisect_of_late h hfits hmid hnext).symm
  | case4 l r h mid hfits hmid hnext rest ih =>
      exact ih.trans (bisect_of_early h hfits hmid hnext).symm
  | case1 l r h mid hfits hmid =>
      rw [bisect.eq_def, if_pos h]
      simp only [mid] at hfits hmid
      simp only [if_pos hfits, hmid]
  | case3 l r h mid hfits hmid hnext | case5 l r h mid hfits hmid hnext =>
      rw [bisect.eq_def, if_pos h]
      simp only [mid] at hfits hmid hnext
      simp only [if_pos hfits, hmid, if_neg hnext]
  | case6 l r h mid hfits =>
      rw [bisect.eq_def, if_pos h]
      simp only [mid] at hfits
      simp only [if_neg hfits]
  | case7 l r h => rw [bisect.eq_def, if_neg h]

/-- Only the positions of the range are read. -/
theorem bisectReads_range (late : ℤ → Option Bool) (l r : ℤ) :
    ∀ i ∈ (bisectReads late l r).1, l ≤ i ∧ i ≤ r := by
  fun_induction bisectReads late l r with
  | case2 l r h mid _ _ _ rest ih | case4 l r h mid _ _ _ rest ih =>
      refine List.forall_mem_cons.mpr ⟨⟨by omega, by omega⟩, fun i hi => ?_⟩
      have hrest := ih i hi
      omega
  | case1 l r h mid | case3 l r h mid | case5 l r h mid =>
      exact List.forall_mem_singleton.mpr ⟨by omega, by omega⟩
  | case6 | case7 => exact nofun

/-- There are no more rounds than positions. -/
theorem length_bisectReads_le (late : ℤ → Option Bool) (l r : ℤ) :
    (bisectReads late l r).1.length ≤ (r + 1 - l).toNat := by
  fun_induction bisectReads late l r with
  | case2 l r h mid _ _ _ rest ih =>
      have hle : rest.1.length ≤ (mid - 1 + 1 - l).toNat := ih
      rw [List.length_cons]
      omega
  | case4 l r h mid _ _ _ rest ih =>
      have hle : rest.1.length ≤ (r + 1 - (mid + 1)).toNat := ih
      rw [List.length_cons]
      omega
  | case1 l r h mid | case3 l r h mid | case5 l r h mid =>
      rw [List.length_singleton]
      omega
  | case6 | case7 => exact Nat.zero_le _

/-- A sum from the left, with its partial sums. -/
def sumFrom (acc : ℤ) : List ℤ → Option ℤ
  | [] => some acc
  | v :: l => (check (acc + v)).bind fun acc => sumFrom acc l

def sum (l : List ℤ) : Option ℤ := sumFrom 0 l

/-- A sum that did not overflow is exact and in range. -/
theorem sumFrom_eq_some {l : List ℤ} {acc s : ℤ} (hacc : fits acc) (h : sumFrom acc l = some s) :
    s = acc + l.sum ∧ fits s := by
  induction l generalizing acc with
  | nil =>
      cases h
      exact ⟨by simp, hacc⟩
  | cons v l ih =>
      obtain ⟨acc', hv, h⟩ := Option.bind_eq_some_iff.mp h
      simp only [check, Option.ite_none_right_eq_some, Option.some.injEq] at hv
      obtain ⟨hfits, rfl⟩ := hv
      obtain ⟨hs, hrange⟩ := ih hfits h
      rw [List.sum_cons, ← add_assoc]
      exact ⟨hs, hrange⟩

theorem sum_eq_some {l : List ℤ} {s : ℤ} (h : sum l = some s) : s = l.sum ∧ fits s := by
  have := sumFrom_eq_some (by unfold fits; omega) h
  rwa [zero_add] at this

/-- Terms between bounds of either sign, whose totals are in range. -/
theorem sumFrom_of_bounds {α : Type*} {low f high : α → ℤ} {l : List α}
    (hlow : ∀ a ∈ l, low a ≤ 0 ∧ low a ≤ f a) (hhigh : ∀ a ∈ l, 0 ≤ high a ∧ f a ≤ high a)
    {acc : ℤ} (hmin : -2147483648 ≤ acc + total low l) (hmax : acc + total high l ≤ 2147483647) :
    sumFrom acc (l.map f) = some (acc + total f l) := by
  induction l generalizing acc with
  | nil => simp [sumFrom]
  | cons a l ih =>
      have hla := hlow a List.mem_cons_self
      have hha := hhigh a List.mem_cons_self
      have hlow' : ∀ b ∈ l, low b ≤ 0 ∧ low b ≤ f b := fun b hb =>
        hlow b (List.mem_cons_of_mem a hb)
      have hhigh' : ∀ b ∈ l, 0 ≤ high b ∧ f b ≤ high b := fun b hb =>
        hhigh b (List.mem_cons_of_mem a hb)
      have hneg : total low l ≤ 0 := by
        have := total_nonneg (f := fun b => -low b) (l := l) fun b hb => by
          have := hlow' b hb
          omega
        rw [total_neg] at this
        omega
      have hpos : 0 ≤ total high l := total_nonneg fun b hb => (hhigh' b hb).1
      rw [total_cons] at hmin hmax
      rw [List.map_cons, sumFrom, check_of_fits (by unfold fits; omega), Option.bind_some,
        ih hlow' hhigh' (by omega) (by omega), total_cons, add_assoc]

theorem sum_of_bounds {α : Type*} {low f high : α → ℤ} {l : List α}
    (hlow : ∀ a ∈ l, low a ≤ 0 ∧ low a ≤ f a) (hhigh : ∀ a ∈ l, 0 ≤ high a ∧ f a ≤ high a)
    (hmin : -2147483648 ≤ total low l) (hmax : total high l ≤ 2147483647) :
    sum (l.map f) = some (total f l) := by
  have := @sumFrom_of_bounds _ low f high l hlow hhigh 0 (by omega) (by omega)
  rwa [zero_add] at this

/-- As many terms of `-1` as an `i32` can count. -/
theorem sum_of_neg_one {α : Type*} {f : α → ℤ} {l : List α} (hf : ∀ a ∈ l, f a = -1)
    (hlen : l.length ≤ 2147483647) : sum (l.map f) = some (total f l) := by
  have htotal : total (fun _ => -1) l = -l.length := by simp [total]
  apply @sum_of_bounds _ (fun _ => -1) _ (fun _ => 0)
  · exact fun a ha => ⟨by omega, (hf a ha).ge⟩
  · exact fun a ha => ⟨le_rfl, by rw [hf a ha]; omega⟩
  · rw [htotal]
    omega
  · rw [total_eq_zero fun _ _ => rfl]
    omega

/-- Nonnegative terms can be summed exactly when their total is in range. -/
theorem sum_iff_of_nonneg {α : Type*} {f : α → ℤ} {l : List α} (h : ∀ a ∈ l, 0 ≤ f a) :
    sum (l.map f) = some (total f l) ↔ total f l ≤ 2147483647 := by
  constructor
  · intro hs
    exact (sum_eq_some hs).2.2
  · intro hle
    apply @sum_of_bounds _ (fun _ => 0) _ f
    · exact fun a ha => ⟨le_rfl, h a ha⟩
    · exact fun a ha => ⟨h a ha, le_rfl⟩
    · rw [total_eq_zero fun _ _ => rfl]
      omega
    · exact hle

end AntsPool.CheckedI32
