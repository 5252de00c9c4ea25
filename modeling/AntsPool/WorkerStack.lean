import AntsPool.Bisection
import AntsPool.Errors
import Mathlib.Data.List.Basic

/-!
# The default worker queue

The stack of `worker_stack.rs`: workers oldest first, taken from the end. The
expired prefix is found by bisection over an inclusive range with signed bounds.
-/
namespace AntsPool
open Bisection

structure WorkerStack (W : Type) where
  items : List W
deriving Repr, DecidableEq

namespace WorkerStack
variable {W : Type}

def new (_size : ℤ) : WorkerStack W := ⟨[]⟩

def binarySearch (stamp : W → ℤ) (q : WorkerStack W) (l r expiryTime : ℤ) : ℤ :=
  bisect (fun mid => expiryTime < (q.items[mid.toNat]?).elim 0 stamp) l r

def len (q : WorkerStack W) : ℕ := q.items.length

def isEmpty (q : WorkerStack W) : Bool := q.items.isEmpty

/-- The stack grows on demand; an insert never fails. -/
def insert (q : WorkerStack W) (worker : W) : Except Error (WorkerStack W) :=
  .ok ⟨q.items ++ [worker]⟩

def detach (q : WorkerStack W) : Option W × WorkerStack W :=
  (q.items.getLast?, ⟨q.items.dropLast⟩)

def refresh (stamp : W → ℤ) (now duration : ℤ) (q : WorkerStack W) : List W × WorkerStack W :=
  let n := q.len
  if n = 0 then ([], q)
  else
    let expiryTime := now - duration
    let index := q.binarySearch stamp 0 (n - 1) expiryTime
    if index = -1 then ([], q)
    else (q.items.take (index + 1).toNat, ⟨q.items.drop (index + 1).toNat⟩)

/-- `reset`, with the workers it finishes in that order. -/
def reset (q : WorkerStack W) : List W × WorkerStack W := (q.items, ⟨[]⟩)

theorem refresh_items (stamp : W → ℤ) (now duration : ℤ) (q : WorkerStack W) :
    ∃ m, (q.refresh stamp now duration).1 = q.items.take m ∧
      (q.refresh stamp now duration).2.items = q.items.drop m := by
  simp only [refresh]
  split_ifs
  · exact ⟨0, by simp, by simp⟩
  · exact ⟨0, by simp, by simp⟩
  · exact ⟨_, rfl, rfl⟩

end WorkerStack

end AntsPool
