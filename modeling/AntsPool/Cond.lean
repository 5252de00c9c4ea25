import Mathlib.Tactic.Linarith

/-!
# The condition variable over the pool's lock

The bookkeeping of `deps/cond.rs`. A wait first registers, still holding the
pool's lock, and then passes through its loop until one pass lets it leave: on a
token, or on a generation that has moved on. A pass that finds neither blocks.
-/
namespace AntsPool

structure Cond where
  parked : ℕ
  tokens : ℕ
  generation : ℕ
deriving Repr, DecidableEq

namespace Cond

def new : Cond := ⟨0, 0, 0⟩

/-- `waiters.parked += 1`; the generation to leave on is the current one. -/
def register (c : Cond) : Cond := { c with parked := c.parked + 1 }

/-- One pass of the loop in `wait`; `none` when the caller stays blocked. -/
def poll (c : Cond) (generation : ℕ) : Option Cond :=
  if 0 < c.tokens then some { c with tokens := c.tokens - 1, parked := c.parked - 1 }
  else if c.generation ≠ generation then some { c with parked := c.parked - 1 }
  else none

def signal (c : Cond) : Cond :=
  if c.tokens < c.parked then { c with tokens := c.tokens + 1 } else c

def nextGeneration (c : Cond) : ℕ := (c.generation + 1) % 2 ^ 64

def broadcast (c : Cond) : Cond :=
  if 0 < c.parked then { c with generation := c.nextGeneration, tokens := 0 } else c

@[simp] theorem register_generation (c : Cond) : c.register.generation = c.generation := rfl
@[simp] theorem register_tokens (c : Cond) : c.register.tokens = c.tokens := rfl
@[simp] theorem register_parked (c : Cond) : c.register.parked = c.parked + 1 := rfl

theorem poll_some {c d : Cond} {g : ℕ} (h : c.poll g = some d) :
    d.generation = c.generation ∧ d.parked = c.parked - 1 ∧
      ((0 < c.tokens ∧ d.tokens = c.tokens - 1) ∨
        (c.tokens = 0 ∧ d.tokens = 0 ∧ c.generation ≠ g)) := by
  unfold poll at h
  split_ifs at h with ht hg
  · simp only [Option.some.injEq] at h
    subst h
    exact ⟨rfl, rfl, .inl ⟨ht, rfl⟩⟩
  · simp only [Option.some.injEq] at h
    subst h
    have : c.tokens = 0 := by omega
    exact ⟨rfl, rfl, .inr ⟨this, this, hg⟩⟩

theorem poll_none {c : Cond} {g : ℕ} (h : c.poll g = none) : c.tokens = 0 ∧ c.generation = g := by
  unfold poll at h
  split_ifs at h with ht hg
  exact ⟨by omega, not_not.mp hg⟩

@[simp] theorem signal_generation (c : Cond) : c.signal.generation = c.generation := by
  unfold signal
  split <;> rfl

@[simp] theorem signal_parked (c : Cond) : c.signal.parked = c.parked := by
  unfold signal
  split <;> rfl

theorem signal_tokens (c : Cond) :
    (c.tokens < c.parked ∧ c.signal.tokens = c.tokens + 1) ∨
      (c.parked ≤ c.tokens ∧ c.signal.tokens = c.tokens) := by
  unfold signal
  split
  · exact .inl ⟨by assumption, rfl⟩
  · exact .inr ⟨by omega, rfl⟩

@[simp] theorem broadcast_parked (c : Cond) : c.broadcast.parked = c.parked := by
  unfold broadcast
  split <;> rfl

end Cond

end AntsPool
