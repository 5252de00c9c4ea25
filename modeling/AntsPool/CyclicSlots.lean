import Mathlib.Data.List.Basic
import Mathlib.Data.Nat.ModEq
import Mathlib.Tactic.Linarith

/-!
# Lists laid out in cyclic slots

A cyclic array of optional slots spells a list from a head position when slot
`head + k`, taken modulo the number of slots, holds the list's entry `k` and
all slots beyond the list are vacant. Appending fills the slot after the list,
removing a prefix vacates its slots and moves the head.
-/
namespace AntsPool.CyclicSlots

variable {α : Type}

/-- `slots` spells `l` from `head`: occupied and vacant slots are both exact. -/
structure Spells (slots : List (Option α)) (head : ℕ) (l : List α) : Prop where
  head_lt : head < slots.length
  length_le : l.length ≤ slots.length
  slot : ∀ k < slots.length, slots[(head + k) % slots.length]? = some l[k]?

theorem slot_inj {n h i j : ℕ} (hi : i < n) (hj : j < n) (e : (h + i) % n = (h + j) % n) :
    i = j :=
  Nat.ModEq.eq_of_lt_of_lt (Nat.ModEq.add_left_cancel' h e) hi hj

/-- Every position is some offset from the head. -/
theorem exists_offset {n h p : ℕ} (hh : h < n) (hp : p < n) : ∃ k < n, (h + k) % n = p := by
  by_cases hle : h ≤ p
  · exact ⟨p - h, by omega, by rw [Nat.add_sub_cancel' hle, Nat.mod_eq_of_lt hp]⟩
  · refine ⟨n - h + p, by omega, ?_⟩
    rw [show h + (n - h + p) = p + n by omega, Nat.add_mod_right, Nat.mod_eq_of_lt hp]

theorem spells_replicate {n head : ℕ} (h : head < n) :
    Spells (List.replicate n (none : Option α)) head [] where
  head_lt := by simpa using h
  length_le := by simp
  slot k hk := by
    simp only [List.length_replicate] at hk ⊢
    simp [Nat.mod_lt (head + k) (by omega : 0 < n)]

namespace Spells
variable {slots : List (Option α)} {head : ℕ} {l : List α}

theorem pos (h : Spells slots head l) : 0 < slots.length := by
  have := h.head_lt
  omega

/-- A vacant list may be read from any head. -/
theorem rehead (h : Spells slots head []) {head' : ℕ} (hlt : head' < slots.length) :
    Spells slots head' [] where
  head_lt := hlt
  length_le := h.length_le
  slot k hk := by
    obtain ⟨j, hj, e⟩ := exists_offset h.head_lt (Nat.mod_lt (head' + k) h.pos)
    simpa [e] using h.slot j hj

theorem first (h : Spells slots head l) : slots[head]? = some l[0]? := by
  simpa [Nat.mod_eq_of_lt h.head_lt] using h.slot 0 h.pos

theorem append (h : Spells slots head l) (hlt : l.length < slots.length) (a : α) :
    Spells (slots.set ((head + l.length) % slots.length) (some a)) head (l ++ [a]) where
  head_lt := by simpa using h.head_lt
  length_le := by
    simp only [List.length_append, List.length_singleton, List.length_set]
    omega
  slot k hk := by
    simp only [List.length_set] at hk ⊢
    by_cases hkl : k = l.length
    · subst hkl
      rw [List.getElem?_set_self (Nat.mod_lt _ h.pos)]
      simp
    · rw [List.getElem?_set_ne (fun e => hkl (slot_inj hlt hk e).symm), h.slot k hk]
      rcases Nat.lt_or_gt_of_ne hkl with hlt' | hgt
      · rw [List.getElem?_append_left hlt']
      · rw [List.getElem?_eq_none (by omega), List.getElem?_eq_none (by
          simp only [List.length_append, List.length_singleton]
          omega)]

/-- Vacating the first `m` slots leaves the rest of the list, `m` slots on. -/
theorem drop (h : Spells slots head l) {m : ℕ} (hm : m ≤ l.length) {slots' : List (Option α)}
    (hlen : slots'.length = slots.length)
    (hgone : ∀ k < m, slots'[(head + k) % slots.length]? = some none)
    (hkept : ∀ k, m ≤ k → k < slots.length →
      slots'[(head + k) % slots.length]? = slots[(head + k) % slots.length]?) :
    Spells slots' ((head + m) % slots.length) (l.drop m) where
  head_lt := by
    rw [hlen]
    exact Nat.mod_lt _ h.pos
  length_le := by
    have := h.length_le
    simp only [List.length_drop]
    omega
  slot k hk := by
    have hle := h.length_le
    rw [hlen] at hk ⊢
    rw [Nat.mod_add_mod, List.getElem?_drop]
    by_cases hkm : m + k < slots.length
    · rw [Nat.add_assoc, hkept (m + k) (by omega) hkm, h.slot _ hkm]
    · -- The offset has come round to the slots just vacated.
      rw [show head + m + k = head + (m + k - slots.length) + slots.length by omega,
        Nat.add_mod_right, hgone _ (by omega), List.getElem?_eq_none (by omega)]

/-- An unwrapped run of occupied slots reads off a segment of the list. -/
theorem segment (h : Spells slots head l) (lo hi a : ℕ) (hlo : lo ≤ hi)
    (ha : a + (hi - lo) ≤ l.length)
    (hlay : ∀ k < hi - lo, (head + (a + k)) % slots.length = lo + k) :
    ((slots.take hi).drop lo).filterMap id = (l.drop a).take (hi - lo) := by
  have hseg : (slots.take hi).drop lo = ((l.drop a).take (hi - lo)).map some := by
    apply List.ext_getElem?
    intro k
    rw [List.getElem?_drop, List.getElem?_map, List.getElem?_take, List.getElem?_take]
    by_cases hk : k < hi - lo
    · have hle := h.length_le
      rw [if_pos (by omega), if_pos hk, ← hlay k hk, h.slot _ (by omega), List.getElem?_drop,
        List.getElem?_eq_getElem (by omega)]
      rfl
    · rw [if_neg (by omega), if_neg hk]
      rfl
  rw [hseg]
  simp

end Spells

end AntsPool.CyclicSlots
