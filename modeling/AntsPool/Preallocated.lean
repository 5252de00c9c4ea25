import AntsPool.Capacity
import AntsPool.LastUsed
import AntsPool.SearchRange

/-!
# A preallocated ring never overflows

The ring of a preallocated pool has one slot for each worker that may run, and its
size and the capacity never change. Every parked worker is served by a thread that
still counts as running, and a worker about to be parked is one more. So there is
a slot free whenever a worker is put back.

The size also decides whether the scavenger can fail: in a ring whose search stays
in `i32` no refresh panics.
-/
namespace AntsPool
open Interleaving ListTotals

namespace LoopQueue
variable {W : Type}

theorem detach_size (q : LoopQueue W) : q.detach.2.size = q.size := by
  unfold detach
  split <;> rfl

theorem refresh_size (stamp : W → ℤ) (now duration : ℤ) (q : LoopQueue W) :
    (q.refresh stamp now duration).2.size = q.size := by
  simp only [refresh]
  split <;> rfl

end LoopQueue

namespace WorkerQueue
variable {W : Type}

/-- The number of slots; a stack has no limit. -/
def slots : WorkerQueue W → Option ℕ
  | .stack _ => none
  | .loopQueue q => some q.1.size

theorem new_slots {size : ℤ} {q : WorkerQueue W} (h : newWorkerQueue .loopQueue size = some q) :
    q.slots = some size.toNat := by
  simp only [newWorkerQueue, if_true] at h
  obtain ⟨r, hr, rfl⟩ := Option.map_eq_some_iff.mp h
  unfold Ring.new at hr
  split at hr
  · cases hr
  · rename_i s hs
    cases hr
    exact congrArg some (LoopQueue.new_represents hs).2

theorem insert_slots {q q' : WorkerQueue W} {w : W} (h : q.insert w = .ok q') :
    q'.slots = q.slots := by
  cases q with
  | stack q =>
      cases h
      rfl
  | loopQueue q =>
      simp only [insert, Ring.insert] at h
      split at h
      · cases h
      · rename_i r hr
        cases h
        exact congrArg some (LoopQueue.insert_represents q.represents hr).2.1

theorem detach_slots (q : WorkerQueue W) : q.detach.2.slots = q.slots := by
  cases q with
  | stack q => rfl
  | loopQueue q => exact congrArg some q.1.detach_size

theorem refresh_slots (stamp : W → ℤ) (now duration : ℤ) (q : WorkerQueue W) :
    (q.refresh stamp now duration).2.slots = q.slots := by
  cases q with
  | stack q => rfl
  | loopQueue q => exact congrArg some (q.1.refresh_size stamp now duration)

theorem reset_slots (q : WorkerQueue W) : q.reset.2.slots = q.slots := by
  cases q with
  | stack q => rfl
  | loopQueue q => exact congrArg some (LoopQueue.reset_represents q.represents).2.2

/-- A queue in which the search of a refresh stays in `i32`, whatever is parked: a stack, or
a ring three times whose size is in range. -/
def inRange (q : WorkerQueue W) : Prop := ∀ n ∈ q.slots, n ≤ 715827883

instance (q : WorkerQueue W) : Decidable q.inRange :=
  inferInstanceAs (Decidable (∀ n ∈ q.slots, n ≤ 715827883))

theorem refreshI32_of_inRange {q : WorkerQueue W} (h : q.inRange) (stamp : W → ℤ)
    (now duration : ℤ) :
    q.refreshI32 stamp now duration = some (q.refresh stamp now duration) := by
  cases q with
  | stack q => rfl
  | loopQueue q =>
      have hq : q.1.refreshI32 stamp now duration = some (q.1.refresh stamp now duration) :=
        LoopQueue.refreshWith_of_le (fun _ => CheckedI32.check_of_fits) q.represents
          (h q.1.size rfl) now duration
      simp only [refreshI32, Ring.refreshI32]
      split
      · rename_i hnone
        cases hnone.symm.trans hq
      · rename_i r hr
        cases hr.symm.trans hq
        rfl

/-- An insert finds room as long as fewer workers are parked than there are slots. -/
theorem insert_of_lt {q : WorkerQueue W} {n : ℕ} (hn : q.slots = some n)
    (hlt : q.items.length < n) (w : W) : ∃ q', q.insert w = .ok q' := by
  cases q with
  | stack q => cases hn
  | loopQueue q =>
      cases hn
      have hnot : q.1.insert w ≠ .error .queueIsFull := fun he =>
        hlt.ne ((LoopQueue.insert_error_iff q.represents w).mp he)
      simp only [insert, Ring.insert]
      split
      · rename_i e he
        have hfull : e = .queueIsFull := by
          unfold LoopQueue.insert at he
          split at he
          · cases he
            rfl
          · cases he
        exact (hnot (hfull ▸ he)).elim
      · exact ⟨_, rfl⟩

end WorkerQueue

/-- No step changes the number of slots. -/
theorem Thread.Step.slots_eq {o : Options} {i : ℕ} {s s' : PoolCore} {t t' : Thread}
    {new : List Thread} (h : Thread.Step o i s t s' t' new) :
    s'.workers.slots = s.workers.slots := by
  rcases h.workers_cases with heq | heq | ⟨w, b, _, hi⟩ | heq | heq
  · rw [heq]
  · rw [heq, WorkerQueue.detach_slots]
  · exact WorkerQueue.insert_slots hi
  · rw [heq, WorkerQueue.refresh_slots]
  · rw [heq, WorkerQueue.reset_slots]

theorem slots_of_reach {o : Options} {G : Guard} {x₀ x : Config}
    (h : (program o).Reach (fun z => z = x₀) G x) :
    x.shared.workers.slots = x₀.shared.workers.slots := by
  refine Program.Reach.invariant
    (J := fun x => x.shared.workers.slots = x₀.shared.workers.slots) ?_ ?_ ?_ h
  · rintro y rfl
    rfl
  · exact fun _ _ _ hy _ => hy
  · exact fun y i a t r _ hy _ _ hn => ((program_step hn).slots_eq).trans hy

theorem inRange_of_reach {o : Options} {G : Guard} {x₀ x : Config}
    (h₀ : x₀.shared.workers.inRange) (h : (program o).Reach (fun z => z = x₀) G x) :
    x.shared.workers.inRange := by
  rw [WorkerQueue.inRange, slots_of_reach h]
  exact h₀

/-- In such a pool the scavenger does not die. -/
theorem Run.not_panicked {o : Options} {G : Guard} {x : Config} (h : Run o G x)
    (hring : x.shared.workers.inRange) : Thread.purge .panicked ∉ x.threads := by
  revert hring
  refine Run.invariant
    (J := fun x => x.shared.workers.inRange → Thread.purge .panicked ∉ x.threads) ?_ ?_ ?_ h
  · intro y hy _ hp
    rcases hy.threads _ hp with h | h | h <;> cases h
  · intro y c _ hy _ hring hp
    rcases List.mem_append.mp hp with hp | hp
    · exact hy hring hp
    · cases c <;> cases List.mem_singleton.mp hp
  · intro y i a t s' t' new _ hy _ _ hs hring hp
    have hring : y.shared.workers.inRange := by
      rw [Config.after, WorkerQueue.inRange, hs.slots_eq] at hring
      exact hring
    rcases Config.mem_after hp with hp | rfl | hp
    · exact hy hring hp
    · cases hs with
      | purge hs =>
          cases hs with
          | overflow _ hr => cases hr.symm.trans (WorkerQueue.refreshI32_of_inRange hring _ _ _)
    · rcases hs.new_cases hp with ⟨w, hw⟩ | hw | hw <;> cases hw

/-- A ring with as many slots as the pool has ever had capacity. -/
structure PoolCore.Preallocated (s : PoolCore) : Prop where
  slots : s.workers.slots = some s.capacity.toNat
  capacities : s.past.capacities = [s.capacity]
  bounded : s.capacity ≠ -1

theorem Starts.preallocated {o : Options} {x : Config} (h : Starts o x) (hp : o.preAlloc = true) :
    x.shared.Preallocated := by
  obtain ⟨size, options, clock, h⟩ := h
  obtain ⟨_, capacity, _, hbounded, queue, hqueue, purge, events, latest, _, hs, _⟩ :=
    PoolCore.new_ok h
  rw [if_pos hp] at hqueue
  rw [hs]
  exact ⟨WorkerQueue.new_slots hqueue, rfl, hbounded hp⟩

/-- The worker that a thread serves. -/
def Thread.worker : Thread → Option ℕ
  | .work t => some t.worker
  | _ => none

namespace Run
variable {o : Options} {G : Guard} {x : Config}

theorem preallocated (h : Run o G x) (hp : o.preAlloc = true) : x.shared.Preallocated := by
  refine (Program.Reach.invariant_threads (J := PoolCore.Preallocated)
    (φ := fun _ _ t => ∀ size c, t ≠ .tune (.store size c)) ?_ ?_ ?_ h).1
  · intro y hy
    refine ⟨hy.preallocated hp, fun i t ht size c => ?_⟩
    rcases hy.fresh.threads t (List.mem_of_getElem? ht) with rfl | rfl | rfl <;> exact nofun
  · intro y c _ _ _ size k
    cases c <;> exact nofun
  · rintro y i a t ⟨s', t', new⟩ _ hy hall _ ht hn
    have hs : Thread.Step o i y.shared t s' t' new := program_step hn
    refine ⟨?_, fun size c ht' => ?_, fun u hu j _ size c hc => ?_, fun j u _ hu => hall j u hu⟩
    · rcases hs.capacity_cases with ⟨size, c, rfl, _⟩ | ⟨hc, hcs⟩
      · exact (hall i _ ht size c rfl).elim
      · exact ⟨by rw [hs.slots_eq, hc, hy.slots], by rw [hcs, hc, hy.capacities],
          hc ▸ hy.bounded⟩
    · -- a preallocated pool is never tuned
      cases ht'
      cases hs with
      | tune hs =>
          cases hs with
          | readCap _ _ _ hpre => cases hp.symm.trans hpre
    · rcases hs.new_cases hu with ⟨w, rfl⟩ | rfl | rfl <;> cases hc

/-- A worker whose channel is not being read and that no thread holds is parked
behind a thread that still counts as running. -/
theorem parked_served (h : Run o G x) {w : ℕ} (hw : w ∈ x.shared.workers.items) :
    ∃ t ∈ x.threads, t.counted = true ∧ t.worker = some w := by
  have hserve := h.serves_eq w
  have hcount := List.one_le_count_iff.mpr hw
  have hplace := h.place_le w
  have hthreads := total_nonneg (l := x.threads) (f := fun t : Thread => (t.holds w : ℤ))
    fun t _ => Int.natCast_nonneg _
  have hexist : x.shared.existing w = 1 := if_pos (h.existing_of_parked hw)
  unfold places at hplace
  have hpos : 0 < x.threads.countP (Thread.serves w) := by omega
  obtain ⟨t, ht, hs⟩ := List.countP_pos_iff.mp hpos
  have hfree : t.holds w = 0 := by
    have := le_total (f := fun t : Thread => (t.holds w : ℤ)) (fun _ => Int.natCast_nonneg _) ht
    omega
  refine ⟨t, ht, ?_⟩
  cases t with
  | submit t =>
      obtain ⟨p, b, pc⟩ := t
      cases pc with
      | run v => simp_all [Thread.serves, Thread.holds]
      | _ => cases hs
  | work t =>
      obtain ⟨v, b, pc⟩ := t
      simp only [Thread.serves, Bool.decide_and, Bool.and_eq_true, decide_eq_true_eq,
        Bool.decide_eq_true] at hs
      refine ⟨?_, congrArg some hs.1⟩
      simp only [Thread.holds, hs.1, true_and] at hfree
      cases pc <;> simp_all [Thread.counted, WorkerPc.counted, WorkerPc.owns, WorkerPc.serves]
  | _ => cases hs

theorem parked_le_running (h : Run o G x) :
    (x.shared.workers.items.length : ℤ) ≤ x.shared.running := by
  rw [h.running_eq]
  exact_mod_cast length_le_countP h.queue_nodup fun w hw => h.parked_served hw

/-- The worker about to be parked is running and not parked. -/
theorem parked_lt_running (h : Run o G x) {w : ℕ} {b : Bool}
    (ht : Thread.work ⟨w, b, .insert⟩ ∈ x.threads) :
    w ∉ x.shared.workers.items ∧ (x.shared.workers.items.length : ℤ) < x.shared.running := by
  have hw : w ∉ x.shared.workers.items := by
    refine h.not_queued_of_holds ht ?_
    simp [Thread.holds, WorkerPc.owns]
  refine ⟨hw, ?_⟩
  have hnodup : (w :: x.shared.workers.items).Nodup := List.nodup_cons.mpr ⟨hw, h.queue_nodup⟩
  have hle := length_le_countP hnodup (p := Thread.counted) (f := Thread.worker)
    (m := x.threads) fun v hv => by
      rcases List.mem_cons.mp hv with rfl | hv
      · exact ⟨_, ht, rfl, rfl⟩
      · exact h.parked_served hv
  rw [List.length_cons] at hle
  rw [h.running_eq]
  omega

end Run

/-- In a preallocated pool the parked workers are at most the running ones, these at
most the capacity, and the capacity is the size of the ring. A worker about to be put
back is running and not parked, so the ring takes it. -/
theorem Run.ring_has_room {o : Options} {G : Guard} {x : Config} (h : Run o G x)
    (hp : o.preAlloc = true) :
    x.shared.workers.slots = some x.shared.capacity.toNat ∧
    (x.shared.workers.items.length : ℤ) ≤ x.shared.running ∧
    x.shared.running ≤ x.shared.capacity ∧
    ∀ w b, Thread.work ⟨w, b, .insert⟩ ∈ x.threads →
      w ∉ x.shared.workers.items ∧ (x.shared.workers.items.length : ℤ) < x.shared.running ∧
      ∃ q, x.shared.workers.insert w = .ok q := by
  obtain ⟨hslots, hcapacities, hbounded⟩ := h.preallocated hp
  have hle : x.shared.running ≤ x.shared.capacity := by
    obtain ⟨k, hk, hle⟩ := h.bounded.1.within.resolve_left hbounded
    rw [hcapacities] at hk
    exact List.mem_singleton.mp hk ▸ hle
  refine ⟨hslots, h.parked_le_running, hle, fun w b ht => ?_⟩
  obtain ⟨hw, hlt⟩ := h.parked_lt_running ht
  exact ⟨hw, hlt, WorkerQueue.insert_of_lt hslots (by omega) w⟩

end AntsPool
