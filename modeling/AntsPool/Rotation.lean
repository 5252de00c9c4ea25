import Mathlib.Data.Int.CardIntervalMod
import Mathlib.Data.List.Count
import Mathlib.Data.Nat.Count
import Mathlib.Tactic.Linarith

/-!
# Windows of a wrapping counter

A counter that wraps at `M`, reduced modulo `n`, visits the residues in turn but for
the wrap, where it starts again at zero. How often a window visits a residue depends
on the residue only through three comparisons: with where the window starts, with
where it ends, and, once for each wrap, with `M % n`.
-/
namespace AntsPool.Rotation

/-- The residues of `m` values of the counter, `a` being the first. -/
def window (M n a m : ℕ) : List ℕ := (List.range m).map fun k => (a + k) % M % n

theorem window_zero (M n a : ℕ) : window M n a 0 = [] := rfl

theorem window_succ (M n a m : ℕ) : window M n a (m + 1) = window M n a m ++ [(a + m) % M % n] := by
  rw [window, List.range_succ, List.map_append, List.map_singleton, window]

theorem length_window (M n a m : ℕ) : (window M n a m).length = m := by
  rw [window, List.length_map, List.length_range]

theorem count_window_eq (M n a m j : ℕ) :
    (window M n a m).count j = Nat.count (fun k => (a + k) % M % n = j) m := by
  induction m with
  | zero => rfl
  | succ m ih =>
      rw [window_succ, List.count_append, ih, Nat.count_succ, List.count_singleton]
      simp

theorem count_congr {p q : ℕ → Prop} [DecidablePred p] [DecidablePred q] {b : ℕ}
    (h : ∀ t < b, p t ↔ q t) : Nat.count p b = Nat.count q b := by
  induction b with
  | zero => rfl
  | succ b ih =>
      rw [Nat.count_succ, Nat.count_succ, ih fun t ht => h t (ht.trans b.lt_succ_self)]
      simp only [h b b.lt_succ_self]

/-- How many numbers below `b` have the residue `j`. -/
theorem count_mod {n : ℕ} (hn : 0 < n) {j : ℕ} (hj : j < n) (b : ℕ) :
    Nat.count (fun t => t % n = j) b = b / n + if j < b % n then 1 else 0 := by
  have hmod := Nat.count_modEq_card b hn j
  rw [Nat.mod_eq_of_lt hj] at hmod
  rw [← hmod]
  refine count_congr fun t _ => ?_
  rw [Nat.ModEq, Nat.mod_eq_of_lt hj]

/-- How many of the first `b` values of the counter have the residue `j`. -/
theorem count_wrapped {M n : ℕ} (hM : 0 < M) (hn : 0 < n) {j : ℕ} (hj : j < n) (b : ℕ) :
    Nat.count (fun t => t % M % n = j) b =
      b / M * (M / n) + (if j < M % n then b / M else 0) + b % M / n +
        if j < b % M % n then 1 else 0 := by
  have hpart : ∀ c ≤ M, Nat.count (fun t => t % M % n = j) c =
      c / n + if j < c % n then 1 else 0 := by
    intro c hc
    rw [← count_mod hn hj]
    exact count_congr fun t ht => by rw [Nat.mod_eq_of_lt (ht.trans_le hc)]
  have hfull : ∀ q, Nat.count (fun t => t % M % n = j) (M * q) =
      q * (M / n) + if j < M % n then q else 0 := by
    intro q
    induction q with
    | zero => simp
    | succ q ih =>
        have hshift : Nat.count (fun t => (M * q + t) % M % n = j) M =
            Nat.count (fun t => t % M % n = j) M :=
          count_congr fun t _ => by rw [Nat.mul_add_mod]
        rw [Nat.mul_succ, Nat.count_add, ih, hshift, hpart M le_rfl, Nat.succ_mul]
        split_ifs <;> omega
  have hshift : Nat.count (fun t => (M * (b / M) + t) % M % n = j) (b % M) =
      Nat.count (fun t => t % M % n = j) (b % M) :=
    count_congr fun t _ => by rw [Nat.mul_add_mod]
  conv_lhs => rw [← Nat.div_add_mod b M]
  rw [Nat.count_add, hfull, hshift, hpart _ (Nat.mod_lt b hM).le]
  omega

/-- Every two residues are visited equally often, up to one visit. -/
def Fair (n : ℕ) (l : List ℕ) : Prop := ∀ i < n, ∀ j < n, l.count i ≤ l.count j + 1

instance (n : ℕ) (l : List ℕ) : Decidable (Fair n l) :=
  inferInstanceAs (Decidable (∀ i < n, ∀ j < n, _))

/-- The visits of `j` up to a summand that is the same for all residues: one more in
each wrap below the gap `M % n`, one more before the end and one less before the start. -/
def tilt (wraps gap first last j : ℕ) : ℤ :=
  (if j < gap then wraps else 0 : ℕ) + (if j < last then 1 else 0) - if j < first then 1 else 0

/-- When no residue is visited twice more than another. -/
def level (wraps gap first last : ℕ) : Prop :=
  gap = 0 ∨ wraps = 0 ∨
    (wraps = 1 ∧ (last = 0 ∨ (min gap last ≤ first ∧ first ≤ max gap last))) ∨
    (wraps = 2 ∧ first = gap ∧ last = 0)

instance (wraps gap first last : ℕ) : Decidable (level wraps gap first last) :=
  inferInstanceAs (Decidable (_ ∨ _))

theorem tilt_range {wraps gap first last : ℕ} (h : level wraps gap first last) :
    ∃ low : ℤ, ∀ j, low ≤ tilt wraps gap first last j ∧ tilt wraps gap first last j ≤ low + 1 := by
  unfold tilt
  rcases h with rfl | rfl | ⟨rfl, rfl | ⟨hlow, hhigh⟩⟩ | ⟨rfl, rfl, rfl⟩
  · refine ⟨if first ≤ last then 0 else -1, fun j => ?_⟩
    split_ifs <;> omega
  · refine ⟨if first ≤ last then 0 else -1, fun j => ?_⟩
    split_ifs <;> omega
  · refine ⟨if first ≤ gap then 0 else -1, fun j => ?_⟩
    split_ifs <;> omega
  · refine ⟨0, fun j => ?_⟩
    split_ifs <;> omega
  · refine ⟨0, fun j => ?_⟩
    split_ifs <;> omega

/-- The last residue is never visited out of turn, so the residues at zero, at the start
and after both the gap and the end decide. -/
theorem level_of_tilt {n wraps gap first last : ℕ} (hgap : gap < n) (hfirst : first < n)
    (hlast : last < n)
    (h : ∀ i < n, ∀ j < n, tilt wraps gap first last i ≤ tilt wraps gap first last j + 1) :
    level wraps gap first last := by
  rcases Nat.eq_zero_or_pos gap with hzero | hpos
  · exact .inl hzero
  have hnever : tilt wraps gap first last (n - 1) = 0 := by
    rw [tilt, if_neg (by omega), if_neg (by omega), if_neg (by omega)]
    rfl
  have hatZero : tilt wraps gap first last 0 =
      wraps + (if 0 < last then 1 else 0) - if 0 < first then 1 else 0 := by
    rw [tilt, if_pos hpos]
  have hatStart : tilt wraps gap first last first =
      (if first < gap then wraps else 0 : ℕ) + if first < last then 1 else 0 := by
    rw [tilt, if_neg (lt_irrefl first), sub_zero]
  have hafter : tilt wraps gap first last (max gap last) =
      -if max gap last < first then 1 else 0 := by
    rw [tilt, if_neg (by omega), if_neg (by omega)]
    simp
  have h₁ := h 0 (by omega) (n - 1) (by omega)
  have h₂ := h first hfirst (n - 1) (by omega)
  have h₃ := h 0 (by omega) (max gap last) (by omega)
  rw [hatZero, hnever] at h₁
  rw [hatStart, hnever] at h₂
  rw [hatZero, hafter] at h₃
  unfold level
  split_ifs at h₁ h₂ h₃ <;> omega

theorem level_iff_tilt {n wraps gap first last : ℕ} (hgap : gap < n) (hfirst : first < n)
    (hlast : last < n) :
    level wraps gap first last ↔
      ∀ i < n, ∀ j < n, tilt wraps gap first last i ≤ tilt wraps gap first last j + 1 := by
  constructor
  · intro h i _ j _
    obtain ⟨low, hlow⟩ := tilt_range h
    have hi := hlow i
    have hj := hlow j
    omega
  · exact level_of_tilt hgap hfirst hlast

/-- The windows that are fair. With `M` a multiple of `n` all are, and so is every
window without a wrap; with one wrap or two it depends on where they start and end. -/
def fairWindow (M n a m : ℕ) : Prop :=
  level ((a + m) / M) (M % n) (a % n) ((a + m) % M % n)

instance (M n a m : ℕ) : Decidable (fairWindow M n a m) :=
  inferInstanceAs (Decidable (level _ _ _ _))

theorem count_window {M n a : ℕ} (hn : 0 < n) (ha : a < M) (m : ℕ) :
    ∃ c : ℤ, ∀ j < n, ((window M n a m).count j : ℤ) =
      c + tilt ((a + m) / M) (M % n) (a % n) ((a + m) % M % n) j := by
  refine ⟨((a + m) / M * (M / n) : ℕ) + ((a + m) % M / n : ℕ) - (a / n : ℕ), fun j hj => ?_⟩
  have hM : 0 < M := by omega
  have htotal := Nat.count_add (fun t => t % M % n = j) a m
  have hbefore := count_wrapped hM hn hj a
  rw [Nat.div_eq_of_lt ha, Nat.mod_eq_of_lt ha, Nat.zero_mul] at hbefore
  rw [count_wrapped hM hn hj, hbefore] at htotal
  rw [count_window_eq, tilt]
  split_ifs at htotal ⊢ <;> omega

/-- A window is fair exactly when its wraps, its start and its end make it so. -/
theorem fair_window_iff {M n a : ℕ} (hn : 0 < n) (ha : a < M) (m : ℕ) :
    Fair n (window M n a m) ↔ fairWindow M n a m := by
  obtain ⟨c, hc⟩ := count_window hn ha m
  rw [fairWindow, level_iff_tilt (Nat.mod_lt M hn) (Nat.mod_lt a hn) (Nat.mod_lt _ hn)]
  constructor
  · intro h i hi j hj
    have hle := h i hi j hj
    have hci := hc i hi
    have hcj := hc j hj
    omega
  · intro h i hi j hj
    have hle := h i hi j hj
    have hci := hc i hi
    have hcj := hc j hj
    omega

/-- Across a wrap the first residue may come twice in a row. -/
example : ¬ Fair 3 (window 16 3 15 2) ∧ ¬ fairWindow 16 3 15 2 := by decide

end AntsPool.Rotation
