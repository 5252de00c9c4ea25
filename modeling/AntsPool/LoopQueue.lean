import AntsPool.Bisection
import AntsPool.BoundedFifo
import AntsPool.CheckedI32
import AntsPool.CyclicSlots
import AntsPool.Errors
import Mathlib.Data.List.Count

/-!
# The pre-allocated worker queue

The ring buffer of `worker_loop_queue.rs`, slot for slot: backing storage of
optional workers, two indices, the size and the flag that tells the two
meanings of `head = tail` apart. A worker is any value; its last-use stamp is
read through the function `stamp`, which holds the stamps at the time of the
call. The search and the refresh come twice: with exact index arithmetic, and
with the `i32` sums of the source, whichever way a build makes them.

The ring is then shown to be a bounded first-in first-out list, in every
rotation, for every sequence of operations.
-/
namespace AntsPool
open Bisection CyclicSlots

structure LoopQueue (W : Type) where
  items : List (Option W)
  head : ℕ
  tail : ℕ
  size : ℕ
  isFull : Bool
deriving Repr, DecidableEq

namespace LoopQueue
variable {W : Type}

def new (size : ℤ) : Option (LoopQueue W) :=
  if size ≤ 0 then none
  else some ⟨List.replicate size.toNat none, 0, 0, size.toNat, false⟩

def isEmpty (q : LoopQueue W) : Bool := q.head == q.tail && !q.isFull

def len (q : LoopQueue W) : ℕ :=
  if q.size = 0 ∨ q.isEmpty = true then 0
  else if q.head = q.tail ∧ q.isFull = true then q.size
  else if q.head < q.tail then q.tail - q.head
  else q.size - q.head + q.tail

def insert (q : LoopQueue W) (worker : W) : Except Error (LoopQueue W) :=
  if q.isFull then .error .queueIsFull
  else
    let tail := (q.tail + 1) % q.size
    .ok { q with items := q.items.set q.tail (some worker), tail := tail,
                 isFull := if tail = q.head then true else q.isFull }

def detach (q : LoopQueue W) : Option W × LoopQueue W :=
  if q.isEmpty then (none, q)
  else
    ((q.items[q.head]?).join,
      { q with items := q.items.set q.head none, head := (q.head + 1) % q.size, isFull := false })

def lastUsed (stamp : W → ℤ) (q : LoopQueue W) (index : ℕ) : ℤ :=
  (q.items[index]?).join.elim 0 stamp

/-- The true index of the last worker that is not late, `-1` when there is none.
The search runs over positions mapped to start at `head`. -/
def binarySearch (stamp : W → ℤ) (q : LoopQueue W) (expiryTime : ℤ) : ℤ :=
  let n := q.items.length
  if q.isEmpty ∨ expiryTime < q.lastUsed stamp q.head then -1
  else
    let base := q.head
    let r : ℕ := (q.tail + n - 1 - q.head) % n
    let r := bisect (fun mid => expiryTime < q.lastUsed stamp ((mid.toNat + base) % n)) 0 r
    (r + base + n).tmod n

/-- `slot.take()` over the slots `lo..hi`: the workers found and what is left. -/
def takeSlots (items : List (Option W)) (lo hi : ℕ) : List W × List (Option W) :=
  (((items.take hi).drop lo).filterMap id,
    items.take lo ++ (List.replicate (hi - lo) none ++ items.drop hi))

/-- The part of `refresh` after its search: the slots from `head` to `index` are
emptied. The range may wrap; the segment that starts at zero then comes first. -/
def evict (index : ℕ) (q : LoopQueue W) : List W × LoopQueue W :=
  let taken :=
    if q.head ≤ index then takeSlots q.items q.head (index + 1)
    else
      let low := takeSlots q.items 0 (index + 1)
      let high := takeSlots low.2 q.head low.2.length
      (low.1 ++ high.1, high.2)
  (taken.1, { q with items := taken.2, head := (index + 1) % q.size,
                     isFull := if taken.1.isEmpty then q.isFull else false })

/-- `refresh(duration)` at wall-clock time `now`. -/
def refresh (stamp : W → ℤ) (now duration : ℤ) (q : LoopQueue W) : List W × LoopQueue W :=
  let expiryTime := now - duration
  let index := q.binarySearch stamp expiryTime
  if index = -1 then ([], q) else q.evict index.toNat

/-- `items[index]`; `none` is the panic of an index out of bounds. -/
def readLastUsed (stamp : W → ℤ) (q : LoopQueue W) (index : ℕ) : Option ℤ :=
  if index < q.items.length then some (q.lastUsed stamp index) else none

/-- `binary_search` with its `i32` values made by `i32`; `none` is a panic, of the
arithmetic or of an index. The positions of the loop lie between `-1` and the size,
so they are in range however a build adds. -/
def binarySearchWith (i32 : ℤ → Option ℤ) (stamp : W → ℤ) (q : LoopQueue W) (expiryTime : ℤ) :
    Option ℤ :=
  let n := q.items.length
  if q.isEmpty then some (-1)
  else do
    let first ← q.readLastUsed stamp q.head
    if expiryTime < first then some (-1)
    else do
      let base := q.head
      let r ← i32 ((q.tail + n - 1 - q.head) % n : ℕ)
      let r ← CheckedI32.bisect (fun mid =>
        (q.readLastUsed stamp ((mid.toNat + base) % n)).map fun last => expiryTime < last) 0 r
      let base ← i32 base
      let n ← i32 n
      let sum ← i32 (r + base)
      let sum ← i32 (sum + n)
      some (sum.tmod n)

/-- `refresh` over that search; `none` also when a slice leaves the storage. -/
def refreshWith (i32 : ℤ → Option ℤ) (stamp : W → ℤ) (now duration : ℤ) (q : LoopQueue W) :
    Option (List W × LoopQueue W) := do
  let index ← q.binarySearchWith i32 stamp (now - duration)
  if index = -1 then some ([], q)
  else if 0 ≤ index ∧ index < q.items.length ∧ q.head ≤ q.items.length then
    some (q.evict index.toNat)
  else none

/-- `binary_search` in a build that checks its arithmetic. -/
def binarySearchI32 (stamp : W → ℤ) (q : LoopQueue W) (expiryTime : ℤ) : Option ℤ :=
  q.binarySearchWith CheckedI32.check stamp expiryTime

/-- `refresh` in a build that checks its arithmetic. -/
def refreshI32 (stamp : W → ℤ) (now duration : ℤ) (q : LoopQueue W) :
    Option (List W × LoopQueue W) :=
  q.refreshWith CheckedI32.check stamp now duration

theorem detach_countP {q q' : LoopQueue W} {w : W} (h : q.detach = (some w, q')) :
    q'.items.countP Option.isSome < q.items.countP Option.isSome := by
  unfold detach at h
  split at h
  · cases h
  · simp only [Prod.mk.injEq] at h
    obtain ⟨hw, rfl⟩ := h
    have hitem := Option.join_eq_some_iff.mp hw
    have hlt := (List.getElem?_eq_some_iff.mp hitem).1
    have hpos : 0 < q.items.countP Option.isSome :=
      List.countP_pos_iff.mpr ⟨some w, List.mem_of_getElem? hitem, rfl⟩
    have hsome : q.items[q.head] = some w := (List.getElem?_eq_some_iff.mp hitem).2
    rw [List.countP_set hlt, hsome]
    simp only [Option.isSome_some, Option.isSome_none, if_true, Bool.false_eq_true, if_false]
    omega

/-- The loop `while let Some(worker) = self.detach()`. -/
def detachAll (q : LoopQueue W) : List W × LoopQueue W :=
  match h : q.detach with
  | (none, q') => ([], q')
  | (some w, q') =>
      have := detach_countP h
      let r := detachAll q'
      (w :: r.1, r.2)
termination_by q.items.countP Option.isSome

/-- `reset`, with the workers it finishes in that order. -/
def reset (q : LoopQueue W) : List W × LoopQueue W :=
  if q.isEmpty then ([], q)
  else
    let r := q.detachAll
    (r.1, { r.2 with head := 0, tail := 0 })

/-! ## The list a ring represents -/

/-- The ring holds exactly `l`, oldest first, in the slots from `head` on. -/
structure Represents (q : LoopQueue W) (l : List W) : Prop where
  spells : Spells q.items q.head l
  size_eq : q.items.length = q.size
  tail_eq : q.tail = (q.head + l.length) % q.size
  full_iff : q.isFull = true ↔ l.length = q.size

namespace Represents
variable {q : LoopQueue W} {l : List W}

theorem head_lt (h : q.Represents l) : q.head < q.size := h.size_eq ▸ h.spells.head_lt

theorem length_le (h : q.Represents l) : l.length ≤ q.size := h.size_eq ▸ h.spells.length_le

theorem tail_lt (h : q.Represents l) : q.tail < q.size := by
  have := h.head_lt
  rw [h.tail_eq]
  exact Nat.mod_lt _ (by omega)

/-- The tail is the first slot after the list, wrapped at most once. -/
theorem tail_cases (h : q.Represents l) :
    (q.head + l.length < q.size ∧ q.tail = q.head + l.length) ∨
      (q.size ≤ q.head + l.length ∧ q.tail + q.size = q.head + l.length) := by
  have hh := h.head_lt
  have hl := h.length_le
  by_cases hlt : q.head + l.length < q.size
  · exact .inl ⟨hlt, by rw [h.tail_eq, Nat.mod_eq_of_lt hlt]⟩
  · refine .inr ⟨by omega, ?_⟩
    rw [h.tail_eq, Nat.mod_eq_sub_mod (by omega), Nat.mod_eq_of_lt (by omega)]
    omega

theorem isEmpty_iff (h : q.Represents l) : q.isEmpty = true ↔ l = [] := by
  have hh := h.head_lt
  rw [isEmpty, Bool.and_eq_true, beq_iff_eq, Bool.not_eq_true', ← Bool.not_eq_true,
    h.full_iff, ← List.length_eq_zero_iff]
  rcases h.tail_cases with ⟨_, ht⟩ | ⟨_, ht⟩ <;> omega

theorem len_eq (h : q.Represents l) : q.len = l.length := by
  have hh := h.head_lt
  have hl := h.length_le
  have he := h.isEmpty_iff
  rw [← List.length_eq_zero_iff] at he
  simp only [len, he, h.full_iff]
  rcases h.tail_cases with ⟨_, ht⟩ | ⟨_, ht⟩ <;> split_ifs <;> omega

end Represents

theorem new_represents {size : ℤ} {q : LoopQueue W} (h : new size = some q) :
    q.Represents [] ∧ q.size = size.toNat := by
  unfold new at h
  split at h
  · cases h
  · rename_i hpos
    simp only [Option.some.injEq] at h
    subst h
    refine ⟨⟨spells_replicate (show 0 < size.toNat by omega), by simp, by simp, ?_⟩, rfl⟩
    simp only [List.length_nil, Bool.false_eq_true, false_iff]
    omega

theorem insert_error_iff {q : LoopQueue W} {l : List W} (h : q.Represents l) (w : W) :
    q.insert w = .error .queueIsFull ↔ l.length = q.size := by
  unfold insert
  split <;> simp_all [h.full_iff]

theorem insert_represents {q q' : LoopQueue W} {l : List W} {w : W} (h : q.Represents l)
    (hw : q.insert w = .ok q') :
    q'.Represents (l ++ [w]) ∧ q'.size = q.size ∧ l.length < q.size := by
  have hle := h.length_le
  have hh := h.head_lt
  unfold insert at hw
  split at hw
  · cases hw
  · rename_i hfull
    have hlt : l.length < q.size := by
      have := mt h.full_iff.mpr hfull
      omega
    simp only [Except.ok.injEq] at hw
    subst hw
    have htail : (q.tail + 1) % q.size = (q.head + (l ++ [w]).length) % q.size := by
      rw [h.tail_eq, Nat.mod_add_mod, List.length_append, List.length_singleton, Nat.add_assoc]
    refine ⟨⟨?_, by simpa using h.size_eq, htail, ?_⟩, rfl, hlt⟩
    · simpa only [h.size_eq, ← h.tail_eq] using h.spells.append (h.size_eq ▸ hlt) w
    · -- The new tail meets the head exactly when the list fills the ring.
      rw [htail, List.length_append, List.length_singleton]
      by_cases hlast : l.length + 1 = q.size
      · simp [hlast, Nat.mod_eq_of_lt hh]
      · have hne : (q.head + (l.length + 1)) % q.size ≠ q.head := by
          intro e
          have e0 : (q.head + (l.length + 1)) % q.size = (q.head + 0) % q.size := by
            rw [e, Nat.add_zero, Nat.mod_eq_of_lt hh]
          have := slot_inj (by omega) (by omega) e0
          omega
        simp [hne, hlast, hfull]

/-- A prefix is gone and the ring is no longer full. -/
theorem represents_drop {q : LoopQueue W} {l : List W} (h : q.Represents l) {m : ℕ} (hpos : 0 < m)
    (hm : m ≤ l.length) {items : List (Option W)} {head : ℕ} (hlen : items.length = q.size)
    (hhead : head = (q.head + m) % q.size)
    (hgone : ∀ k < m, items[(q.head + k) % q.size]? = some none)
    (hkept : ∀ k, m ≤ k → k < q.size →
      items[(q.head + k) % q.size]? = q.items[(q.head + k) % q.size]?) :
    ({ q with items := items, head := head, isFull := false } : LoopQueue W).Represents
      (l.drop m) := by
  have hle := h.length_le
  have hsz := h.size_eq
  refine ⟨?_, hlen, ?_, ?_⟩
  · simpa only [hsz, hhead] using h.spells.drop hm (by rw [hlen, hsz])
      (by simpa only [hsz] using hgone) (by simpa only [hsz] using hkept)
  · simp only [List.length_drop]
    rw [h.tail_eq, hhead, Nat.mod_add_mod]
    congr 1
    omega
  · simp only [List.length_drop, Bool.false_eq_true, false_iff]
    omega

theorem detach_represents_nil {q : LoopQueue W} (h : q.Represents []) : q.detach = (none, q) := by
  simp [detach, h.isEmpty_iff.mpr rfl]

theorem detach_represents_cons {q : LoopQueue W} {w : W} {l : List W} (h : q.Represents (w :: l)) :
    (q.detach).1 = some w ∧ (q.detach).2.Represents l ∧ (q.detach).2.size = q.size := by
  have hne : q.isEmpty = false := by
    rw [← Bool.not_eq_true, h.isEmpty_iff]
    simp
  have hh := h.head_lt
  have hsz := h.size_eq
  have hfirst : q.items[q.head]? = some (some w) := by simpa using h.spells.first
  have hhead : (q.head + 0) % q.size = q.head := Nat.mod_eq_of_lt hh
  simp only [detach, hne, Bool.false_eq_true, if_false, hfirst, Option.join_some, true_and]
  refine ⟨represents_drop h Nat.one_pos (by simp) (by simpa using hsz) rfl ?_ ?_, trivial⟩
  · intro k hk
    obtain rfl : k = 0 := by omega
    rw [hhead, List.getElem?_set_self (by omega)]
  · intro k hk hlt
    rw [List.getElem?_set_ne]
    intro e
    have := slot_inj (by omega) hlt (hhead.trans e)
    omega

theorem takeSlots_length {items : List (Option W)} {lo hi : ℕ} (hlo : lo ≤ hi)
    (hhi : hi ≤ items.length) : (takeSlots items lo hi).2.length = items.length := by
  simp only [takeSlots, List.length_append, List.length_take, List.length_replicate,
    List.length_drop]
  omega

theorem takeSlots_inside {items : List (Option W)} {lo hi p : ℕ} (hhi : hi ≤ items.length)
    (hlo : lo ≤ p) (hp : p < hi) : (takeSlots items lo hi).2[p]? = some none := by
  simp only [takeSlots]
  rw [List.getElem?_append_right (by simp only [List.length_take]; omega),
    List.getElem?_append_left (by simp only [List.length_take, List.length_replicate]; omega),
    List.getElem?_replicate, if_pos (by simp only [List.length_take]; omega)]

theorem takeSlots_outside {items : List (Option W)} {lo hi p : ℕ} (hlo : lo ≤ hi)
    (hhi : hi ≤ items.length) (hp : p < lo ∨ hi ≤ p) :
    (takeSlots items lo hi).2[p]? = items[p]? := by
  simp only [takeSlots]
  rcases hp with hp | hp
  · rw [List.getElem?_append_left (by simp only [List.length_take]; omega),
      List.getElem?_take_of_lt hp]
  · rw [List.getElem?_append_right (by simp only [List.length_take]; omega),
      List.getElem?_append_right (by simp only [List.length_take, List.length_replicate]; omega),
      List.getElem?_drop]
    congr 1
    simp only [List.length_take, List.length_replicate]
    omega

/-- The slot before the tail is mapped to the last list position. -/
theorem Represents.mapped_tail {q : LoopQueue W} {l : List W} (h : q.Represents l)
    (hpos : 0 < l.length) : (q.tail + q.size - 1 - q.head) % q.size = l.length - 1 := by
  have hh := h.head_lt
  have hle := h.length_le
  rcases h.tail_cases with ⟨_, ht⟩ | ⟨_, ht⟩
  · rw [show q.tail + q.size - 1 - q.head = l.length - 1 + q.size by omega,
      Nat.add_mod_right, Nat.mod_eq_of_lt (by omega)]
  · rw [show q.tail + q.size - 1 - q.head = l.length - 1 by omega,
      Nat.mod_eq_of_lt (by omega)]

/-- Mapped positions read off the stamps of the list. -/
theorem Represents.lastUsed_eq {q : LoopQueue W} {l : List W} (h : q.Represents l) (stamp : W → ℤ)
    {k : ℕ} (hk : k < q.size) : q.lastUsed stamp ((k + q.head) % q.size) = l[k]?.elim 0 stamp := by
  have hslot := h.spells.slot k (by rwa [h.size_eq])
  rw [h.size_eq, Nat.add_comm] at hslot
  rw [lastUsed, hslot]
  rfl

/-- The search is a bisection over the stamps of the list. -/
theorem binarySearch_eq (stamp : W → ℤ) {q : LoopQueue W} {l : List W} (h : q.Represents l)
    (expiryTime : ℤ) :
    q.binarySearch stamp expiryTime =
      if l = [] ∨ expiryTime < l[0]?.elim 0 stamp then -1
      else (bisect (fun mid => expiryTime < l[mid.toNat]?.elim 0 stamp) 0 (l.length - 1) +
        q.head + q.size).tmod q.size := by
  have hh := h.head_lt
  have hle := h.length_le
  have hfirst := h.lastUsed_eq stamp (k := 0) (by omega)
  rw [Nat.zero_add, Nat.mod_eq_of_lt hh] at hfirst
  simp only [binarySearch, h.size_eq, h.isEmpty_iff, hfirst]
  split_ifs with hearly
  · rfl
  · have hpos : 0 < l.length := List.length_pos_iff.mpr (not_or.mp hearly).1
    rw [h.mapped_tail hpos, Int.ofNat_sub hpos, Int.natCast_one, bisect_congr 0 (l.length - 1)]
    intro i hi hir
    rw [h.lastUsed_eq stamp (by omega)]

/-- The search answers `-1` or the slot of the entry at which the bisection ends. -/
theorem binarySearch_bisect (stamp : W → ℤ) {q : LoopQueue W} {l : List W} (h : q.Represents l)
    (expiryTime : ℤ) :
    q.binarySearch stamp expiryTime = -1 ∨
      ∃ m < l.length,
        bisect (fun mid => expiryTime < l[mid.toNat]?.elim 0 stamp) 0 (l.length - 1) = m ∧
        q.binarySearch stamp expiryTime = ((q.head + m) % q.size : ℕ) := by
  rw [binarySearch_eq stamp h]
  split_ifs with hearly
  · exact .inl rfl
  · obtain ⟨hne, hfirst⟩ := not_or.mp hearly
    have hpos : 0 < l.length := List.length_pos_iff.mpr hne
    generalize hres : bisect _ 0 ((l.length : ℤ) - 1) = res
    have hup : res ≤ l.length - 1 := hres ▸ bisect_le _ _ _
    -- The head was just seen to be expired, so the search never ends before it.
    have hlow : 0 ≤ res := hres ▸ le_bisect_of_early _ 0 _ (by omega) (by simpa using hfirst)
    refine .inr ⟨res.toNat, by omega, by omega, ?_⟩
    rw [Int.tmod_eq_emod_of_nonneg (by omega), Int.add_emod_right, Int.natCast_emod]
    congr 1
    omega

/-- Whatever the stamps, the search answers `-1` or the slot of some list entry. -/
theorem binarySearch_cases (stamp : W → ℤ) {q : LoopQueue W} {l : List W} (h : q.Represents l)
    (expiryTime : ℤ) :
    q.binarySearch stamp expiryTime = -1 ∨
      ∃ m < l.length, q.binarySearch stamp expiryTime = ((q.head + m) % q.size : ℕ) := by
  rcases binarySearch_bisect stamp h expiryTime with hnone | ⟨m, hm, _, hsome⟩
  · exact .inl hnone
  · exact .inr ⟨m, hm, hsome⟩

/-- Taking an unwrapped range `head..head + n` takes the first `n` workers. -/
theorem takeSlots_straight {q : LoopQueue W} {l : List W} (h : q.Represents l) {n : ℕ}
    (hpos : 0 < n) (hn : n ≤ l.length) (hwrap : q.head + n ≤ q.size) :
    (takeSlots q.items q.head (q.head + n)).1 = l.take n ∧
      ({ q with items := (takeSlots q.items q.head (q.head + n)).2, head := (q.head + n) % q.size,
                isFull := false } : LoopQueue W).Represents (l.drop n) := by
  have hh := h.head_lt
  have hsz := h.size_eq
  refine ⟨?_, represents_drop h hpos hn ?_ rfl ?_ ?_⟩
  · have := h.spells.segment q.head (q.head + n) 0 (by omega) (by omega) (by
      intro k hk
      rw [hsz, Nat.zero_add, Nat.mod_eq_of_lt (by omega)])
    simpa [takeSlots] using this
  · rw [takeSlots_length (by omega) (by omega), hsz]
  · intro k hk
    exact takeSlots_inside (by omega) (by rw [Nat.mod_eq_of_lt (by omega)]; omega)
      (by rw [Nat.mod_eq_of_lt (by omega)]; omega)
  · intro k hk hlt
    apply takeSlots_outside (by omega) (by omega)
    by_cases hk' : q.head + k < q.size
    · rw [Nat.mod_eq_of_lt hk']
      omega
    · rw [Nat.mod_eq_sub_mod (by omega), Nat.mod_eq_of_lt (by omega)]
      omega

/-- Taking `..hi` and then `head..` takes a prefix that wraps, its end first. -/
theorem takeSlots_wrapped {q : LoopQueue W} {l : List W} (h : q.Represents l) {hi : ℕ}
    (hpos : 0 < hi) (hn : q.size - q.head + hi ≤ l.length) {low high : List W × List (Option W)}
    (hlow : takeSlots q.items 0 hi = low) (hhigh : takeSlots low.2 q.head low.2.length = high) :
    (low.1 ++ high.1).Perm (l.take (q.size - q.head + hi)) ∧
      ({ q with items := high.2, head := hi % q.size, isFull := false } :
        LoopQueue W).Represents (l.drop (q.size - q.head + hi)) := by
  have hh := h.head_lt
  have hle := h.length_le
  have hsz := h.size_eq
  have hlowlen : low.2.length = q.size := by
    rw [← hlow, takeSlots_length (by omega) (by omega), hsz]
  subst hhigh
  refine ⟨?_, represents_drop h (by omega) hn ?_ ?_ ?_ ?_⟩
  · have hlowout : low.1 = (l.drop (q.size - q.head)).take hi := by
      have := h.spells.segment 0 hi (q.size - q.head) (by omega) (by omega) (by
        intro k hk
        rw [hsz, Nat.zero_add, show q.head + (q.size - q.head + k) = k + q.size by omega,
          Nat.add_mod_right, Nat.mod_eq_of_lt (by omega)])
      simpa [← hlow, takeSlots] using this
    have hhighout : (takeSlots low.2 q.head low.2.length).1 = l.take (q.size - q.head) := by
      have hsame : low.2.drop q.head = q.items.drop q.head := by
        apply List.ext_getElem?
        intro p
        rw [List.getElem?_drop, List.getElem?_drop, ← hlow,
          takeSlots_outside (by omega) (by omega) (by omega)]
      have := h.spells.segment q.head q.size 0 (by omega) (by omega) (by
        intro k hk
        rw [hsz, Nat.zero_add, Nat.mod_eq_of_lt (by omega)])
      simpa [takeSlots, hsame, ← hsz] using this
    rw [hlowout, hhighout, List.take_add]
    exact List.perm_append_comm
  · rw [takeSlots_length (by omega) le_rfl, hlowlen]
  · rw [show q.head + (q.size - q.head + hi) = hi + q.size by omega, Nat.add_mod_right]
  · intro k hk
    by_cases hk' : q.head + k < q.size
    · exact takeSlots_inside le_rfl (by rw [Nat.mod_eq_of_lt hk']; omega)
        (by rw [Nat.mod_eq_of_lt hk']; omega)
    · rw [Nat.mod_eq_sub_mod (by omega), Nat.mod_eq_of_lt (by omega),
        takeSlots_outside (by omega) le_rfl (by omega), ← hlow]
      exact takeSlots_inside (by omega) (by omega) (by omega)
  · intro k hk hlt
    rw [Nat.mod_eq_sub_mod (by omega), Nat.mod_eq_of_lt (by omega),
      takeSlots_outside (by omega) le_rfl (by omega), ← hlow,
      takeSlots_outside (by omega) (by omega) (by omega)]

/-- When the search answers the slot of entry `m`, a refresh removes the first `m + 1`
workers and returns exactly these, each once. -/
theorem refresh_of_search (stamp : W → ℤ) (now duration : ℤ) {q : LoopQueue W} {l : List W}
    (h : q.Represents l) {m : ℕ} (hm : m < l.length)
    (hsome : q.binarySearch stamp (now - duration) = ((q.head + m) % q.size : ℕ)) :
    (q.refresh stamp now duration).1.Perm (l.take (m + 1)) ∧
      (q.refresh stamp now duration).2.Represents (l.drop (m + 1)) ∧
      (q.refresh stamp now duration).2.size = q.size := by
  have hh := h.head_lt
  have hle := h.length_le
  have hidx : ((q.head + m) % q.size : ℕ) ≠ (-1 : ℤ) := by omega
  -- The prefix is not empty, so the ring is not full any more.
  have htaken {taken : List W} (hp : taken.Perm (l.take (m + 1))) : taken.isEmpty = false := by
    rw [List.isEmpty_eq_false_iff, ← List.length_pos_iff, hp.length_eq, List.length_take]
    omega
  simp only [refresh, evict, hsome, hidx, if_false, Int.toNat_natCast]
  by_cases hwrap : q.head + m < q.size
  · -- One segment, `head..=index`.
    obtain ⟨hout, hrep⟩ := takeSlots_straight h m.succ_pos hm hwrap
    rw [Nat.mod_eq_of_lt hwrap, if_pos (Nat.le_add_right ..)]
    rw [Nat.add_succ] at hout hrep
    have hne := htaken (.of_eq hout)
    exact ⟨.of_eq hout, by simpa only [hne, Bool.false_eq_true, if_false] using hrep, trivial⟩
  · -- Two segments, `..=index` and `head..`.
    have hmod : (q.head + m) % q.size = q.head + m - q.size := by
      rw [Nat.mod_eq_sub_mod (by omega), Nat.mod_eq_of_lt (by omega)]
    have hlast : q.size - q.head + (q.head + m - q.size + 1) = m + 1 := by omega
    obtain ⟨hout, hrep⟩ := takeSlots_wrapped h (Nat.succ_pos (q.head + m - q.size))
      (hlast ▸ hm) rfl rfl
    rw [hlast] at hout hrep
    rw [hmod, if_neg (by omega)]
    have hne := htaken hout
    exact ⟨hout, by simpa only [hne, Bool.false_eq_true, if_false] using hrep, trivial⟩

theorem refresh_of_none (stamp : W → ℤ) (now duration : ℤ) {q : LoopQueue W}
    (hnone : q.binarySearch stamp (now - duration) = -1) :
    q.refresh stamp now duration = ([], q) := by
  simp [refresh, hnone]

/-- A search that does not panic answers the exact index. -/
theorem binarySearch_of_checked {stamp : W → ℤ} {q : LoopQueue W} {expiryTime index : ℤ}
    (h : q.binarySearchI32 stamp expiryTime = some index) :
    q.binarySearch stamp expiryTime = index := by
  have hread (i : ℕ) {first : ℤ} (hr : q.readLastUsed stamp i = some first) :
      q.lastUsed stamp i = first := by
    simp only [readLastUsed, Option.ite_none_right_eq_some, Option.some.injEq] at hr
    exact hr.2
  simp only [binarySearchI32, binarySearchWith] at h
  simp only [binarySearch]
  split_ifs at h with hempty
  · rw [if_pos (.inl hempty)]
    exact Option.some.inj h
  · obtain ⟨first, hfirst, h⟩ := Option.bind_eq_some_iff.mp h
    rw [hread _ hfirst]
    split_ifs at h with hearly
    · rw [if_pos (.inr hearly)]
      exact Option.some.inj h
    · rw [if_neg (not_or_intro hempty hearly)]
      obtain ⟨r, hr, h⟩ := Option.bind_eq_some_iff.mp h
      obtain ⟨k, hk, h⟩ := Option.bind_eq_some_iff.mp h
      obtain ⟨base, hbase, h⟩ := Option.bind_eq_some_iff.mp h
      obtain ⟨n, hn, h⟩ := Option.bind_eq_some_iff.mp h
      obtain ⟨low, hlow, h⟩ := Option.bind_eq_some_iff.mp h
      obtain ⟨sum, hsum, h⟩ := Option.bind_eq_some_iff.mp h
      obtain ⟨-, rfl⟩ := CheckedI32.check_eq_some.mp hr
      obtain ⟨-, rfl⟩ := CheckedI32.check_eq_some.mp hbase
      obtain ⟨-, rfl⟩ := CheckedI32.check_eq_some.mp hn
      obtain ⟨-, rfl⟩ := CheckedI32.check_eq_some.mp hlow
      obtain ⟨-, rfl⟩ := CheckedI32.check_eq_some.mp hsum
      rw [CheckedI32.bisect_exact ?_ hk]
      · exact Option.some.inj h
      · intro i b hb
        obtain ⟨last, hlast, rfl⟩ := Option.map_eq_some_iff.mp hb
        rw [hread _ hlast]

/-- A refresh that does not panic is the exact one. -/
theorem refresh_of_checked {stamp : W → ℤ} {now duration : ℤ} {q : LoopQueue W}
    {r : List W × LoopQueue W} (h : q.refreshI32 stamp now duration = some r) :
    q.refresh stamp now duration = r := by
  obtain ⟨index, hindex, h⟩ := Option.bind_eq_some_iff.mp h
  simp only [refresh, binarySearch_of_checked hindex]
  split_ifs at h ⊢ <;> exact Option.some.inj h

/-- A refresh removes some prefix and returns exactly its workers, each once. -/
theorem refresh_represents (stamp : W → ℤ) (now duration : ℤ) {q : LoopQueue W} {l : List W}
    (h : q.Represents l) :
    ∃ m ≤ l.length, (q.refresh stamp now duration).1.Perm (l.take m) ∧
      (q.refresh stamp now duration).2.Represents (l.drop m) ∧
      (q.refresh stamp now duration).2.size = q.size := by
  rcases binarySearch_cases stamp h (now - duration) with hnone | ⟨m, hm, hsome⟩
  · rw [refresh_of_none stamp now duration hnone]
    exact ⟨0, Nat.zero_le _, .refl _, h, rfl⟩
  · exact ⟨m + 1, hm, refresh_of_search stamp now duration h hm hsome⟩

theorem detachAll_represents {q : LoopQueue W} {l : List W} (h : q.Represents l) :
    q.detachAll.1 = l ∧ q.detachAll.2.Represents [] ∧ q.detachAll.2.size = q.size := by
  induction l generalizing q with
  | nil =>
      rw [detachAll]
      split
      · rename_i q' he
        rw [detach_represents_nil h, Prod.mk.injEq] at he
        exact ⟨rfl, he.2 ▸ h, he.2 ▸ rfl⟩
      · rename_i w q' he
        rw [detach_represents_nil h] at he
        cases he
  | cons a l ih =>
      obtain ⟨hout, hrep, hsize⟩ := detach_represents_cons h
      rw [detachAll]
      split
      · rename_i q' he
        rw [he] at hout
        cases hout
      · rename_i w q' he
        rw [he] at hout hrep hsize
        obtain ⟨hl, hr, hs⟩ := ih hrep
        simp only [Option.some.injEq] at hout
        exact ⟨by simp only [hl, hout], hr, hs.trans hsize⟩

theorem reset_represents {q : LoopQueue W} {l : List W} (h : q.Represents l) :
    q.reset.1 = l ∧ q.reset.2.Represents [] ∧ q.reset.2.size = q.size := by
  unfold reset
  split
  · rename_i he
    obtain rfl := h.isEmpty_iff.mp he
    exact ⟨rfl, h, rfl⟩
  · obtain ⟨hl, hr, hs⟩ := detachAll_represents h
    have hpos := hr.spells.pos
    have hfull : q.detachAll.2.isFull = false := by
      rw [← Bool.not_eq_true, hr.full_iff, ← hr.size_eq]
      simp only [List.length_nil]
      omega
    refine ⟨hl, ⟨hr.spells.rehead hpos, hr.size_eq, by simp, ?_⟩, hs⟩
    rw [← hr.size_eq]
    simp only [hfull, List.length_nil, Bool.false_eq_true, false_iff]
    omega

/-! ## Sequences of operations -/

inductive Op (W : Type)
  | insert (worker : W)
  | detach
  | refresh (stamp : W → ℤ) (now duration : ℤ)
  | reset

def Op.request : Op W → BoundedFifo.Request W
  | .insert w => .push w
  | .detach => .pop
  | .refresh _ _ _ => .evict
  | .reset => .clear

/-- One operation on the ring; a failed insert leaves it as it was. -/
def apply (q : LoopQueue W) : Op W → BoundedFifo.Reply W × LoopQueue W
  | .insert w =>
      match q.insert w with
      | .ok q' => (.done, q')
      | .error _ => (.full, q)
  | .detach => (.popped q.detach.1, q.detach.2)
  | .refresh stamp now duration =>
      (.removed (q.refresh stamp now duration).1, (q.refresh stamp now duration).2)
  | .reset => (.removed q.reset.1, q.reset.2)

def exec (q : LoopQueue W) : List (Op W) → List (BoundedFifo.Reply W) × LoopQueue W
  | [] => ([], q)
  | op :: ops =>
      let r := q.apply op
      let s := exec r.2 ops
      (r.1 :: s.1, s.2)

theorem apply_refines {q : LoopQueue W} {l : List W} (h : q.Represents l) (op : Op W) :
    ∃ m, BoundedFifo.Step q.size l op.request (q.apply op).1 m ∧ (q.apply op).2.Represents m ∧
      (q.apply op).2.size = q.size := by
  cases op with
  | insert w =>
      cases hw : q.insert w with
      | ok q' =>
          obtain ⟨hrep, hsize, hlt⟩ := insert_represents h hw
          exact ⟨l ++ [w], by simpa [apply, hw, Op.request] using .push w hlt,
            by simpa [apply, hw] using hrep, by simpa [apply, hw] using hsize⟩
      | error e =>
          have hfull : l.length = q.size := by
            rw [← insert_error_iff h w, hw]
            unfold insert at hw
            split at hw
            · simpa using hw.symm
            · cases hw
          exact ⟨l, by simpa [apply, hw, Op.request] using .full w hfull,
            by simpa [apply, hw] using h, by simp [apply, hw]⟩
  | detach =>
      cases l with
      | nil =>
          rw [apply, detach_represents_nil h]
          exact ⟨[], .empty, h, rfl⟩
      | cons a l =>
          obtain ⟨hout, hrep, hsize⟩ := detach_represents_cons h
          refine ⟨l, ?_, hrep, hsize⟩
          simp only [apply, hout]
          exact .pop a l
  | refresh stamp now duration =>
      obtain ⟨m, _, hperm, hrep, hsize⟩ := refresh_represents stamp now duration h
      refine ⟨l.drop m, ?_, hrep, hsize⟩
      have hstep : BoundedFifo.Step q.size (l.take m ++ l.drop m) .evict
          (.removed (q.refresh stamp now duration).1) (l.drop m) := .evict hperm
      rwa [List.take_append_drop] at hstep
  | reset =>
      obtain ⟨hout, hrep, hsize⟩ := reset_represents h
      refine ⟨[], ?_, hrep, hsize⟩
      simp only [apply, hout]
      exact .clear l

theorem exec_refines {q : LoopQueue W} {l : List W} (h : q.Represents l) (ops : List (Op W)) :
    ∃ m, BoundedFifo.Run q.size l (ops.map Op.request) (q.exec ops).1 m ∧
      (q.exec ops).2.Represents m ∧ (q.exec ops).2.size = q.size := by
  induction ops generalizing q l with
  | nil => exact ⟨l, .nil l, h, rfl⟩
  | cons op ops ih =>
      obtain ⟨m, hstep, hrep, hsize⟩ := apply_refines h op
      obtain ⟨n, hrun, hrep', hsize'⟩ := ih hrep
      exact ⟨n, .cons hstep (hsize ▸ hrun), hrep', hsize'.trans hsize⟩

/-- Every finite sequence of operations on a new ring is a run of the bounded
list, reply for reply, and the ring it ends in spells the final list. -/
theorem refines_boundedFifo (size : ℤ) (hsize : 0 < size) :
    ∃ q₀ : LoopQueue W, new size = some q₀ ∧ ∀ ops : List (Op W), ∃ l : List W,
      BoundedFifo.Run size.toNat [] (ops.map Op.request) (q₀.exec ops).1 l ∧
      (q₀.exec ops).2.Represents l ∧ (q₀.exec ops).2.size = size.toNat ∧
      (q₀.exec ops).2.head < size.toNat ∧ (q₀.exec ops).2.tail < size.toNat ∧
      l.length ≤ size.toNat ∧ (q₀.exec ops).2.len = l.length ∧
      ((q₀.exec ops).2.isEmpty = true ↔ l = []) ∧
      ∀ w, (q₀.exec ops).2.insert w = .error .queueIsFull ↔ l.length = size.toNat := by
  obtain ⟨q₀, hnew⟩ : ∃ q₀ : LoopQueue W, new size = some q₀ := by
    simp [new, show ¬ size ≤ 0 by omega]
  obtain ⟨hrep, hsz⟩ := new_represents hnew
  refine ⟨q₀, hnew, fun ops => ?_⟩
  obtain ⟨l, hrun, hfin, hfsz⟩ := exec_refines hrep ops
  have hcap := hfsz.trans hsz
  exact ⟨l, hsz ▸ hrun, hfin, hcap, hcap ▸ hfin.head_lt, hcap ▸ hfin.tail_lt,
    (hsz ▸ hrun).length_le (Nat.zero_le _), hfin.len_eq, hfin.isEmpty_iff,
    fun w => hcap ▸ insert_error_iff hfin w⟩

theorem refines_boundedFifo_two :
    ∃ q₀ : LoopQueue ℕ, new 2 = some q₀ ∧ ∀ ops : List (Op ℕ), ∃ l : List ℕ,
      BoundedFifo.Run (2 : ℤ).toNat [] (ops.map Op.request) (q₀.exec ops).1 l ∧
      (q₀.exec ops).2.Represents l ∧ (q₀.exec ops).2.size = (2 : ℤ).toNat ∧
      (q₀.exec ops).2.head < (2 : ℤ).toNat ∧ (q₀.exec ops).2.tail < (2 : ℤ).toNat ∧
      l.length ≤ (2 : ℤ).toNat ∧ (q₀.exec ops).2.len = l.length ∧
      ((q₀.exec ops).2.isEmpty = true ↔ l = []) ∧
      ∀ w, (q₀.exec ops).2.insert w = .error .queueIsFull ↔ l.length = (2 : ℤ).toNat :=
  refines_boundedFifo 2 (by decide)

end LoopQueue

end AntsPool
