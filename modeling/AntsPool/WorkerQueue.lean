import AntsPool.LoopQueue
import AntsPool.WorkerStack
import Mathlib.Data.List.Induction

/-!
# The queue a pool parks its idle workers in

Either implementation behind one interface, as `Box<dyn WorkerQueue>` is. A ring
comes with the proof that it spells some list, so a malformed ring cannot be
parked in a pool. A pool refreshes it in checked `i32` arithmetic, where a refresh
that overflows panics before it touches the ring, and one that does not is exact.
The laws at the end are all that the pool's proofs use: an insert appends, a detach
takes one worker out, a refresh cuts a prefix off and a reset empties the queue and
finishes what was in it.
-/
namespace AntsPool

namespace LoopQueue
variable {W : Type}

/-- The workers in the ring, oldest first. -/
def contents (q : LoopQueue W) : List W :=
  (List.range q.len).filterMap fun k => (q.items[(q.head + k) % q.size]?).join

private theorem filterMap_getElem? (l : List W) :
    (List.range l.length).filterMap (fun k => l[k]?) = l := by
  induction l using List.reverseRecOn with
  | nil => rfl
  | append_singleton l a ih =>
      rw [List.length_append, List.length_singleton, List.range_succ, List.filterMap_append]
      have hold : ∀ k ∈ List.range l.length, (l ++ [a])[k]? = l[k]? := fun k hk =>
        List.getElem?_append_left (List.mem_range.mp hk)
      rw [List.filterMap_congr hold, ih]
      simp

theorem Represents.contents_eq {q : LoopQueue W} {l : List W} (h : q.Represents l) :
    q.contents = l := by
  have hle := h.length_le
  have hread : ∀ k ∈ List.range l.length, (q.items[(q.head + k) % q.size]?).join = l[k]? := by
    intro k hk
    have hk := List.mem_range.mp hk
    rw [← h.size_eq, h.spells.slot k (by rw [h.size_eq]; omega)]
    rfl
  rw [contents, h.len_eq, List.filterMap_congr hread, filterMap_getElem?]

end LoopQueue

/-- A ring that spells some list. -/
abbrev Ring (W : Type) := {q : LoopQueue W // ∃ l, q.Represents l}

namespace Ring
variable {W : Type}

theorem represents (q : Ring W) : q.1.Represents q.1.contents := by
  obtain ⟨l, h⟩ := q.2
  exact h.contents_eq.symm ▸ h

def new (size : ℤ) : Option (Ring W) :=
  match h : LoopQueue.new size with
  | none => none
  | some q => some ⟨q, [], (LoopQueue.new_represents h).1⟩

def insert (q : Ring W) (worker : W) : Except Error (Ring W) :=
  match h : q.1.insert worker with
  | .error e => .error e
  | .ok r => .ok ⟨r, _, (LoopQueue.insert_represents q.represents h).1⟩

theorem detach_wellFormed (q : Ring W) : ∃ l, (q.1.detach).2.Represents l := by
  have h := q.represents
  cases hl : q.1.contents with
  | nil =>
      rw [hl] at h
      exact ⟨[], (LoopQueue.detach_represents_nil h).symm ▸ h⟩
  | cons a l =>
      rw [hl] at h
      exact ⟨l, (LoopQueue.detach_represents_cons h).2.1⟩

def detach (q : Ring W) : Option W × Ring W := (q.1.detach.1, ⟨q.1.detach.2, q.detach_wellFormed⟩)

/-- A detach takes the oldest worker or none. -/
theorem detach_contents (q : Ring W) : ∃ m, q.detach.2.1.contents = q.1.contents.drop m := by
  have h := q.represents
  simp only [detach]
  cases hl : q.1.contents with
  | nil =>
      rw [hl] at h
      exact ⟨0, by rw [LoopQueue.detach_represents_nil h, hl, List.drop_nil]⟩
  | cons a l =>
      rw [hl] at h
      exact ⟨1, (LoopQueue.detach_represents_cons h).2.1.contents_eq⟩

theorem refresh_wellFormed (q : Ring W) (stamp : W → ℤ) (now duration : ℤ) :
    ∃ l, (q.1.refresh stamp now duration).2.Represents l := by
  obtain ⟨_, _, _, h, _⟩ := LoopQueue.refresh_represents stamp now duration q.represents
  exact ⟨_, h⟩

def refresh (stamp : W → ℤ) (now duration : ℤ) (q : Ring W) : List W × Ring W :=
  ((q.1.refresh stamp now duration).1,
    ⟨(q.1.refresh stamp now duration).2, q.refresh_wellFormed stamp now duration⟩)

theorem refreshI32_wellFormed {stamp : W → ℤ} {now duration : ℤ} {q : Ring W}
    {r : List W × LoopQueue W} (h : q.1.refreshI32 stamp now duration = some r) :
    ∃ l, r.2.Represents l :=
  LoopQueue.refresh_of_checked h ▸ q.refresh_wellFormed stamp now duration

/-- `none` is the panic of a sum that overflows. -/
def refreshI32 (stamp : W → ℤ) (now duration : ℤ) (q : Ring W) : Option (List W × Ring W) :=
  match h : q.1.refreshI32 stamp now duration with
  | none => none
  | some r => some (r.1, ⟨r.2, q.refreshI32_wellFormed h⟩)

def reset (q : Ring W) : List W × Ring W :=
  (q.1.reset.1, ⟨q.1.reset.2, [], (LoopQueue.reset_represents q.represents).2.1⟩)

/-! The proof that a ring carries changes none of the operations. -/

theorem new_val (size : ℤ) : (Ring.new size).map Subtype.val = LoopQueue.new (W := W) size := by
  unfold Ring.new
  split <;> simp [*]

theorem insert_val (q : Ring W) (worker : W) :
    (q.insert worker).map Subtype.val = q.1.insert worker := by
  unfold Ring.insert
  split <;> simp [*, Except.map]

theorem refreshI32_val (stamp : W → ℤ) (now duration : ℤ) (q : Ring W) :
    (q.refreshI32 stamp now duration).map (fun r => (r.1, r.2.1)) =
      q.1.refreshI32 stamp now duration := by
  unfold Ring.refreshI32
  split <;> simp [*]

end Ring

structure QueueType where
  value : ℤ
deriving Repr, DecidableEq

/-- A LIFO stack that grows on demand. -/
def QueueType.stack : QueueType := ⟨1⟩

/-- A fixed-capacity ring buffer, used under `PreAlloc`. -/
def QueueType.loopQueue : QueueType := ⟨1 <<< 1⟩

inductive WorkerQueue (W : Type)
  | stack (q : WorkerStack W)
  | loopQueue (q : Ring W)

/-- Builds the queue `queueType` names, a stack for any unrecognised value; `none`
is the panic of a ring asked for with a non-positive size. -/
def newWorkerQueue {W : Type} (queueType : QueueType) (size : ℤ) : Option (WorkerQueue W) :=
  if queueType = .loopQueue then (Ring.new size).map .loopQueue
  else some (.stack (.new size))

namespace WorkerQueue
variable {W : Type}

/-- The parked workers, oldest first. -/
def items : WorkerQueue W → List W
  | .stack q => q.items
  | .loopQueue q => q.1.contents

def len : WorkerQueue W → ℕ
  | .stack q => q.len
  | .loopQueue q => q.1.len

def isEmpty : WorkerQueue W → Bool
  | .stack q => q.isEmpty
  | .loopQueue q => q.1.isEmpty

def insert (worker : W) : WorkerQueue W → Except Error (WorkerQueue W)
  | .stack q => (q.insert worker).map .stack
  | .loopQueue q => (q.insert worker).map .loopQueue

def detach : WorkerQueue W → Option W × WorkerQueue W
  | .stack q => (q.detach.1, .stack q.detach.2)
  | .loopQueue q => (q.detach.1, .loopQueue q.detach.2)

def refresh (stamp : W → ℤ) (now duration : ℤ) : WorkerQueue W → List W × WorkerQueue W
  | .stack q => ((q.refresh stamp now duration).1, .stack (q.refresh stamp now duration).2)
  | .loopQueue q => ((q.refresh stamp now duration).1, .loopQueue (q.refresh stamp now duration).2)

/-- `refresh` in a build that checks its arithmetic. A stack of more workers than `i32`
counts is out of reach, so only a ring can panic. -/
def refreshI32 (stamp : W → ℤ) (now duration : ℤ) : WorkerQueue W →
    Option (List W × WorkerQueue W)
  | .stack q => some ((q.refresh stamp now duration).1, .stack (q.refresh stamp now duration).2)
  | .loopQueue q => (q.refreshI32 stamp now duration).map fun r => (r.1, .loopQueue r.2)

def reset : WorkerQueue W → List W × WorkerQueue W
  | .stack q => (q.reset.1, .stack q.reset.2)
  | .loopQueue q => (q.reset.1, .loopQueue q.reset.2)

theorem refresh_of_checked {stamp : W → ℤ} {now duration : ℤ} {q : WorkerQueue W}
    {r : List W × WorkerQueue W} (h : q.refreshI32 stamp now duration = some r) :
    q.refresh stamp now duration = r := by
  cases q with
  | stack q => exact Option.some.inj h
  | loopQueue q =>
      obtain ⟨r, hr, rfl⟩ := Option.map_eq_some_iff.mp h
      unfold Ring.refreshI32 at hr
      split at hr
      · cases hr
      · rename_i s hs
        cases hr
        simp only [refresh, Ring.refresh, LoopQueue.refresh_of_checked hs]

theorem new_items {queueType : QueueType} {size : ℤ} {q : WorkerQueue W}
    (h : newWorkerQueue queueType size = some q) : q.items = [] := by
  unfold newWorkerQueue at h
  split at h
  · obtain ⟨r, hr, rfl⟩ := Option.map_eq_some_iff.mp h
    unfold Ring.new at hr
    split at hr
    · cases hr
    · rename_i s hs
      cases hr
      exact (LoopQueue.new_represents hs).1.contents_eq
  · cases h
    rfl

theorem insert_items {q q' : WorkerQueue W} {w : W} (h : q.insert w = .ok q') :
    q'.items = q.items ++ [w] := by
  cases q with
  | stack q =>
      cases h
      rfl
  | loopQueue q =>
      simp only [insert, Ring.insert] at h
      split at h
      · cases h
      · rename_i r hr
        cases h
        exact (LoopQueue.insert_represents q.represents hr).1.contents_eq

theorem detach_none {q q' : WorkerQueue W} (h : q.detach = (none, q')) :
    q.items = [] ∧ q'.items = [] := by
  cases q with
  | stack q =>
      simp only [detach, WorkerStack.detach, Prod.mk.injEq, List.getLast?_eq_none_iff] at h
      obtain ⟨he, rfl⟩ := h
      simp [items, he]
  | loopQueue q =>
      simp only [detach, Ring.detach, Prod.mk.injEq] at h
      obtain ⟨he, rfl⟩ := h
      have hr := q.represents
      cases hl : q.1.contents with
      | nil =>
          rw [hl] at hr
          exact ⟨hl, by simp [items, LoopQueue.detach_represents_nil hr, hl]⟩
      | cons a l =>
          rw [hl] at hr
          rw [(LoopQueue.detach_represents_cons hr).1] at he
          cases he

theorem detach_some {q q' : WorkerQueue W} {w : W} (h : q.detach = (some w, q')) :
    q.items.Perm (w :: q'.items) := by
  cases q with
  | stack q =>
      simp only [detach, WorkerStack.detach, Prod.mk.injEq] at h
      obtain ⟨hw, rfl⟩ := h
      have hlast := List.dropLast_append_getLast? w hw
      have hperm := List.perm_append_singleton w q.items.dropLast
      rwa [hlast] at hperm
  | loopQueue q =>
      simp only [detach, Ring.detach, Prod.mk.injEq] at h
      obtain ⟨hw, rfl⟩ := h
      have hr := q.represents
      cases hl : q.1.contents with
      | nil =>
          rw [hl] at hr
          rw [LoopQueue.detach_represents_nil hr] at hw
          cases hw
      | cons a l =>
          rw [hl] at hr
          obtain ⟨ha, hrep, _⟩ := LoopQueue.detach_represents_cons hr
          rw [hw, Option.some.injEq] at ha
          simp only [items, hl, hrep.contents_eq, ha]
          exact .refl _

/-- A detach keeps the order of the workers it leaves. -/
theorem detach_sublist (q : WorkerQueue W) : q.detach.2.items.Sublist q.items := by
  cases q with
  | stack q => exact List.dropLast_sublist q.items
  | loopQueue q =>
      obtain ⟨m, hm⟩ := q.detach_contents
      simp only [detach, items, hm]
      exact List.drop_sublist m _

/-- Both queues evict some prefix and return exactly its workers, each once. -/
theorem refresh_items (stamp : W → ℤ) (now duration : ℤ) (q : WorkerQueue W) :
    ∃ m, (q.refresh stamp now duration).1.Perm (q.items.take m) ∧
      (q.refresh stamp now duration).2.items = q.items.drop m := by
  cases q with
  | stack q =>
      obtain ⟨m, hout, hrest⟩ := q.refresh_items stamp now duration
      exact ⟨m, by simp [refresh, items, hout], hrest⟩
  | loopQueue q =>
      obtain ⟨m, _, hout, hrep, _⟩ := LoopQueue.refresh_represents stamp now duration q.represents
      exact ⟨m, hout, hrep.contents_eq⟩

theorem refresh_perm (stamp : W → ℤ) (now duration : ℤ) (q : WorkerQueue W) :
    q.items.Perm ((q.refresh stamp now duration).1 ++ (q.refresh stamp now duration).2.items) := by
  obtain ⟨m, hout, hrest⟩ := q.refresh_items stamp now duration
  have hperm := hout.symm.append_right (q.items.drop m)
  rwa [List.take_append_drop, ← hrest] at hperm

theorem refresh_sublist (stamp : W → ℤ) (now duration : ℤ) (q : WorkerQueue W) :
    (q.refresh stamp now duration).2.items.Sublist q.items := by
  obtain ⟨m, _, hrest⟩ := q.refresh_items stamp now duration
  exact hrest ▸ List.drop_sublist m q.items

theorem reset_items (q : WorkerQueue W) : q.reset.1 = q.items ∧ q.reset.2.items = [] := by
  cases q with
  | stack q => exact ⟨rfl, rfl⟩
  | loopQueue q =>
      obtain ⟨hout, hrep, _⟩ := LoopQueue.reset_represents q.represents
      exact ⟨hout, hrep.contents_eq⟩

end WorkerQueue

/-- What a pool does with the queue of its idle workers: the trait `WorkerQueue` at the
pool's own workers, with the choice of an implementation. `items` are the parked workers,
oldest first; `refresh` is `none` when it panics. -/
class IdleQueue (Q : Type) where
  new : QueueType → ℤ → Option Q
  items : Q → List ℕ
  insert : ℕ → Q → Except Error Q
  detach : Q → Option ℕ × Q
  refresh : (ℕ → ℤ) → ℤ → ℤ → Q → Option (List ℕ × Q)
  reset : Q → List ℕ × Q

instance : IdleQueue (WorkerQueue ℕ) where
  new := newWorkerQueue
  items := WorkerQueue.items
  insert := WorkerQueue.insert
  detach := WorkerQueue.detach
  refresh := WorkerQueue.refreshI32
  reset := WorkerQueue.reset

namespace IdleQueue

@[simp] theorem new_eq (queueType : QueueType) (size : ℤ) :
    (new queueType size : Option (WorkerQueue ℕ)) = newWorkerQueue queueType size := rfl

@[simp] theorem items_eq (q : WorkerQueue ℕ) : items q = q.items := rfl

@[simp] theorem insert_eq (w : ℕ) (q : WorkerQueue ℕ) : insert w q = q.insert w := rfl

@[simp] theorem detach_eq (q : WorkerQueue ℕ) : detach q = q.detach := rfl

@[simp] theorem refresh_eq (stamp : ℕ → ℤ) (now duration : ℤ) (q : WorkerQueue ℕ) :
    refresh stamp now duration q = q.refreshI32 stamp now duration := rfl

@[simp] theorem reset_eq (q : WorkerQueue ℕ) : reset q = q.reset := rfl

end IdleQueue

end AntsPool
