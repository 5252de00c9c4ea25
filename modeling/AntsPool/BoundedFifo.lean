import Mathlib.Data.List.Basic
import Mathlib.Tactic.Linarith

/-!
# A bounded first-in first-out list

The abstract component: a list of at most `cap` elements, oldest first. An
eviction removes some prefix, chosen by the implementation, and reports its
elements each once, in any order.
-/
namespace AntsPool.BoundedFifo

variable {α : Type}

inductive Request (α : Type)
  | push (a : α)
  | pop
  | evict
  | clear

inductive Reply (α : Type)
  | done
  | full
  | popped (a : Option α)
  | removed (out : List α)

inductive Step (cap : ℕ) : List α → Request α → Reply α → List α → Prop
  | push {l : List α} (a : α) : l.length < cap → Step cap l (.push a) .done (l ++ [a])
  | full {l : List α} (a : α) : l.length = cap → Step cap l (.push a) .full l
  | pop (a : α) (l : List α) : Step cap (a :: l) .pop (.popped (some a)) l
  | empty : Step cap [] .pop (.popped none) []
  | evict {out gone l : List α} : out.Perm gone → Step cap (gone ++ l) .evict (.removed out) l
  | clear (l : List α) : Step cap l .clear (.removed l) []

inductive Run (cap : ℕ) : List α → List (Request α) → List (Reply α) → List α → Prop
  | nil (l : List α) : Run cap l [] [] l
  | cons {l m n : List α} {q : Request α} {qs : List (Request α)} {r : Reply α}
      {rs : List (Reply α)} : Step cap l q r m → Run cap m qs rs n → Run cap l (q :: qs) (r :: rs) n

theorem Step.length_le {cap : ℕ} {l m : List α} {q : Request α} {r : Reply α}
    (h : Step cap l q r m) (hl : l.length ≤ cap) : m.length ≤ cap := by
  cases h with
  | push a hlt =>
      simp only [List.length_append, List.length_singleton]
      omega
  | full a _ => exact hl
  | pop a l =>
      simp only [List.length_cons] at hl
      omega
  | empty => exact hl
  | evict _ =>
      simp only [List.length_append] at hl
      omega
  | clear l => exact Nat.zero_le cap

theorem Run.length_le {cap : ℕ} {l m : List α} {qs : List (Request α)} {rs : List (Reply α)}
    (h : Run cap l qs rs m) (hl : l.length ≤ cap) : m.length ≤ cap := by
  induction h with
  | nil l => exact hl
  | cons hs _ ih => exact ih (hs.length_le hl)

end AntsPool.BoundedFifo
