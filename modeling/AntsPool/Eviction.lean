import AntsPool.StampOrder
import AntsPool.WorkerQueue

/-!
# Exact eviction

Both queues are filled in the order of last use and keep that order, so the
expired workers are the first ones and the search, which probes a few of them,
finds the last of these. Nothing is assumed about where a ring's list starts.
-/
namespace AntsPool
open Bisection StampOrder

/-- Every sequence of operations on a queue, with the stamps of its workers, the
stamp of the worker put in last and the list of all that were put in. Workers come
in the order of their stamps, and a parked worker keeps its stamp. -/
inductive WorkerQueue.Timely {W : Type} :
    WorkerQueue W → (W → ℤ) → Option ℤ → List W → Prop
  | new {queueType : QueueType} {size : ℤ} {q : WorkerQueue W} (stamp : W → ℤ) :
      newWorkerQueue queueType size = some q → Timely q stamp none []
  | insert {q q' : WorkerQueue W} {stamp : W → ℤ} {last : Option ℤ} {hist : List W} {w : W} :
      Timely q stamp last hist → (∀ s ∈ last, s ≤ stamp w) → q.insert w = .ok q' →
      Timely q' stamp (some (stamp w)) (hist ++ [w])
  | refuse {q : WorkerQueue W} {stamp : W → ℤ} {last : Option ℤ} {hist : List W} {w : W}
      {e : Error} : Timely q stamp last hist → q.insert w = .error e → Timely q stamp last hist
  | detach {q : WorkerQueue W} {stamp : W → ℤ} {last : Option ℤ} {hist : List W} :
      Timely q stamp last hist → Timely q.detach.2 stamp last hist
  | refresh {q : WorkerQueue W} {stamp : W → ℤ} {last : Option ℤ} {hist : List W}
      (now duration : ℤ) :
      Timely q stamp last hist → Timely (q.refresh stamp now duration).2 stamp last hist
  | reset {q : WorkerQueue W} {stamp : W → ℤ} {last : Option ℤ} {hist : List W} :
      Timely q stamp last hist → Timely q.reset.2 stamp last hist
  | restamp {q : WorkerQueue W} {stamp stamp' : W → ℤ} {last : Option ℤ} {hist : List W} :
      Timely q stamp last hist → (∀ v ∈ q.items, stamp' v = stamp v) → Timely q stamp' last hist

namespace WorkerQueue
variable {W : Type} {q : WorkerQueue W} {stamp : W → ℤ} {last : Option ℤ} {hist : List W}

/-- The parked workers stand in the order in which they were put in. -/
theorem Timely.sublist (h : Timely q stamp last hist) : q.items.Sublist hist := by
  induction h with
  | new stamp hq => exact new_items hq ▸ .slnil
  | insert _ hle hi ih => exact insert_items hi ▸ ih.append (.refl _)
  | refuse _ _ ih => exact ih
  | detach _ ih => exact (detach_sublist _).trans ih
  | refresh now duration _ ih => exact (refresh_sublist _ now duration _).trans ih
  | reset _ ih => exact (reset_items _).2 ▸ List.nil_sublist _
  | restamp _ _ ih => exact ih

end WorkerQueue

/-- Along sorted stamps the bisection ends at the last expired position. -/
theorem bisect_stamps {W : Type} {stamp : W → ℤ} {l : List W}
    (h : l.Pairwise fun v w => stamp v ≤ stamp w) (expiryTime : ℤ) :
    bisect (fun mid => expiryTime < l[mid.toNat]?.elim 0 stamp) 0 (l.length - 1) =
      upTo stamp expiryTime l - 1 := by
  have hle := upTo_le stamp expiryTime l
  apply bisect_eq
  · omega
  · omega
  · intro i hi hir
    obtain ⟨w, hw⟩ : ∃ w, l[i.toNat]? = some w := ⟨_, List.getElem?_eq_getElem (by omega)⟩
    have hearly := le_iff_lt_upTo (e := expiryTime) h hw
    simp only [hw, Option.elim_some, decide_eq_true_eq]
    omega

namespace WorkerStack
variable {W : Type} {q : WorkerStack W} {stamp : W → ℤ}

/-- On a sorted stack the search answers the last expired position. -/
theorem binarySearch_eq (h : q.items.Pairwise fun v w => stamp v ≤ stamp w) (expiryTime : ℤ) :
    q.binarySearch stamp 0 (q.len - 1) expiryTime = upTo stamp expiryTime q.items - 1 := by
  exact bisect_stamps h expiryTime

theorem refresh_eq (h : q.items.Pairwise fun v w => stamp v ≤ stamp w) (now duration : ℤ) :
    (q.refresh stamp now duration).1 = q.items.take (upTo stamp (now - duration) q.items) ∧
      (q.refresh stamp now duration).2.items =
        q.items.drop (upTo stamp (now - duration) q.items) := by
  have hle := upTo_le stamp (now - duration) q.items
  simp only [refresh, binarySearch_eq h]
  split_ifs with hn hnone
  · rw [len] at hn
    have hz : upTo stamp (now - duration) q.items = 0 := by omega
    simp [hz]
  · have hz : upTo stamp (now - duration) q.items = 0 := by omega
    simp [hz]
  · simp

end WorkerStack

namespace LoopQueue
variable {W : Type} {q : LoopQueue W} {l : List W} {stamp : W → ℤ}

/-- On a ring in order the search answers the slot of the last expired worker. -/
theorem binarySearch_of_sorted (hrep : q.Represents l)
    (hsorted : l.Pairwise fun v w => stamp v ≤ stamp w) (expiryTime : ℤ) :
    (upTo stamp expiryTime l = 0 ∧ q.binarySearch stamp expiryTime = -1) ∨
      ∃ m, upTo stamp expiryTime l = m + 1 ∧
        q.binarySearch stamp expiryTime = ((q.head + m) % q.size : ℕ) := by
  have hh := hrep.head_lt
  have hle := upTo_le stamp expiryTime l
  rw [binarySearch_eq stamp hrep]
  cases hl : l with
  | nil => simp [upTo]
  | cons a r =>
      rw [hl] at hsorted hle
      by_cases ha : expiryTime < stamp a
      · simp [ha, upTo_cons_of_late hsorted ha]
      · have hup := upTo_cons_of_early (l := r) (not_lt.mp ha)
        refine .inr ⟨_, hup, ?_⟩
        rw [if_neg (by simpa using ha), bisect_stamps hsorted, hup,
          Int.tmod_eq_emod_of_nonneg (by omega), Int.add_emod_right, Int.natCast_emod]
        congr 1
        omega

theorem refresh_of_sorted (hrep : q.Represents l)
    (hsorted : l.Pairwise fun v w => stamp v ≤ stamp w) (now duration : ℤ) :
    (q.refresh stamp now duration).1.Perm (l.take (upTo stamp (now - duration) l)) ∧
      (q.refresh stamp now duration).2.Represents (l.drop (upTo stamp (now - duration) l)) := by
  have hle := upTo_le stamp (now - duration) l
  rcases binarySearch_of_sorted hrep hsorted (now - duration) with ⟨hz, hnone⟩ | ⟨m, hm, hsome⟩
  · rw [refresh_of_none stamp now duration hnone, hz]
    exact ⟨.refl _, hrep⟩
  · obtain ⟨hout, hrest, _⟩ := refresh_of_search stamp now duration hrep (by omega) hsome
    rw [hm]
    exact ⟨hout, hrest⟩

end LoopQueue

/-! ## Queues in any order -/

/-- The bisection does not end among late entries that nothing early follows. -/
theorem bisect_lt_of_late_drop {W : Type} {stamp : W → ℤ} {l : List W} {expiryTime : ℤ} {k : ℕ}
    (hlate : ∀ w ∈ l.drop k, expiryTime < stamp w) :
    bisect (fun mid => expiryTime < l[mid.toNat]?.elim 0 stamp) 0 (l.length - 1) < k := by
  apply bisect_lt_of_late
  · omega
  · intro i hk hi
    have hlt : i.toNat < l.length := by omega
    have hmem : l[i.toNat] ∈ l.drop k :=
      List.mem_drop_iff_getElem.mpr ⟨i.toNat - k, by omega, by congr 1; omega⟩
    simpa [List.getElem?_eq_getElem hlt] using hlate _ hmem

/-- Late workers at the end of a queue stay in it, whatever stands before them. -/
theorem WorkerQueue.refresh_before {W : Type} (q : WorkerQueue W) {stamp : W → ℤ}
    {now duration : ℤ} {k : ℕ} (hlate : ∀ w ∈ q.items.drop k, now - duration < stamp w) :
    ∃ m ≤ k, (q.refresh stamp now duration).1.Perm (q.items.take m) := by
  have hlt := bisect_lt_of_late_drop hlate
  cases q with
  | stack q =>
      simp only [refresh, WorkerStack.refresh]
      split_ifs
      · exact ⟨0, Nat.zero_le k, .refl _⟩
      · exact ⟨0, Nat.zero_le k, .refl _⟩
      · refine ⟨_, ?_, .refl _⟩
        change q.binarySearch stamp 0 (q.len - 1) (now - duration) < k at hlt
        omega
  | loopQueue q =>
      have hrep := q.represents
      rcases LoopQueue.binarySearch_bisect stamp hrep (now - duration) with
        hnone | ⟨m, hm, hend, hsome⟩
      · refine ⟨0, Nat.zero_le k, .of_eq ?_⟩
        exact congrArg Prod.fst (LoopQueue.refresh_of_none stamp now duration hnone)
      · have hk : (m : ℤ) < k := by
          rw [← hend]
          exact hlt
        exact ⟨m + 1, by omega, (LoopQueue.refresh_of_search stamp now duration hrep hm hsome).1⟩

/-- A sorted queue evicts the expired workers. -/
theorem WorkerQueue.refresh_of_sorted {W : Type} {q : WorkerQueue W} {stamp : W → ℤ}
    (hsorted : q.items.Pairwise fun v w => stamp v ≤ stamp w) (now duration : ℤ) :
    (q.refresh stamp now duration).1.Perm (q.items.filter fun w => stamp w ≤ now - duration) := by
  rw [filter_le_eq_take hsorted]
  cases q with
  | stack q => exact .of_eq (WorkerStack.refresh_eq hsorted now duration).1
  | loopQueue q => exact (LoopQueue.refresh_of_sorted q.represents hsorted now duration).1

end AntsPool
