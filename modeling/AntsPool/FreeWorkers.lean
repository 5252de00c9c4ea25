import AntsPool.Epilogue
import AntsPool.Shrinking

/-!
# What `free` says

`free` is `-1` for an unlimited pool and else what the running workers leave of the
capacity. A `tune` may store a size below the running workers, and a caller may start
a worker on a capacity that it read before such a store. Then less than nothing is
left, and one worker too many looks like an unlimited pool.
-/
namespace AntsPool
open Interleaving

namespace PoolCore

/-- `-1` is for the unlimited pool, and a bounded one has no negative number free. -/
def freeTells (s : PoolCore) : Prop :=
  (s.free = -1 ↔ s.capacity = -1) ∧ (s.capacity ≠ -1 → 0 ≤ s.free)

instance (s : PoolCore) : Decidable s.freeTells :=
  inferInstanceAs (Decidable (_ ∧ _))

/-- The running workers are within the capacity. -/
def within (s : PoolCore) : Prop := s.capacity = -1 ∨ s.running ≤ s.capacity

theorem freeTells_iff {s : PoolCore} (hc : s.capacity = -1 ∨ 1 ≤ s.capacity) :
    s.freeTells ↔ s.within := by
  unfold freeTells free within
  split_ifs <;> omega

end PoolCore

namespace Thread
variable {o : Options} {i : ℕ} {s s' : PoolCore} {t t' : Thread} {new : List Thread}

/-- The size that a `tune` is about to store. -/
def stores : Thread → Option ℤ
  | .tune (.store size _) => some size
  | _ => none

/-- A caller about to start a worker. -/
def startsWorker : Thread → Bool
  | .submit ⟨_, _, .run _⟩ => true
  | _ => false

/-- A `tune` stores no size below the running workers, and a caller starts a worker only
below the capacity as it is now. -/
def keepsWithin (s : PoolCore) (t : Thread) : Prop :=
  (∀ size ∈ t.stores, s.running ≤ size) ∧
    (t.startsWorker = true → s.capacity = -1 ∨ s.running < s.capacity)

instance (s : PoolCore) (t : Thread) : Decidable (t.keepsWithin s) :=
  inferInstanceAs (Decidable (_ ∧ _))

/-- Such a step leaves the running workers within the capacity, -/
theorem Step.within (h : Thread.Step o i s t s' t' new) (hw : s.within) (ht : t.keepsWithin s) :
    s'.within := by
  unfold PoolCore.within at hw ⊢
  rcases h.capacity_cases with ⟨size, c, rfl, hc, _⟩ | ⟨hc, _⟩
  · have hle : s.running ≤ size := ht.1 size rfl
    rcases h.running_cases with ⟨_, _, _, hrun, _⟩ | ⟨_, _, hexit, _⟩ | hr
    · cases hrun
    · cases hexit
    · omega
  · rcases h.running_cases with ⟨p, b, w, rfl, hr⟩ | ⟨_, _, _, hr⟩ | hr
    · have hroom := ht.2 rfl
      omega
    · omega
    · omega

/-- and no other step does. -/
theorem Step.keepsWithin (h : Thread.Step o i s t s' t' new) (hv : t.capacityView s)
    (hw : s'.within) : t.keepsWithin s := by
  cases t with
  | tune t =>
      cases t with
      | store size c =>
          have hsize : 1 ≤ size := hv.1
          have hnew : s'.capacity = size ∧ s'.running = s.running := by
            cases h with
            | tune h => cases h <;> exact ⟨rfl, rfl⟩
          rw [PoolCore.within, hnew.1, hnew.2] at hw
          refine ⟨fun k hk => ?_, nofun⟩
          cases hk
          exact hw.resolve_left (by omega)
      | _ => exact ⟨nofun, nofun⟩
  | submit t =>
      obtain ⟨p, b, pc⟩ := t
      cases pc with
      | run w =>
          refine ⟨nofun, fun _ => ?_⟩
          cases h with
          | submit h =>
              cases h with
              | run => exact hw.imp id fun hle => Int.lt_of_add_one_le hle
      | _ => exact ⟨nofun, nofun⟩
  | _ => exact ⟨nofun, nofun⟩

end Thread

/-- Every thread that steps keeps the running workers within the capacity. -/
def keepsWithin : Guard
  | _, .call _ => True
  | x, .step i _ => ∀ t ∈ x.threads[i]?, t.keepsWithin x.shared

instance (x : Config) : (m : Move) → Decidable (keepsWithin x m)
  | .call _ => inferInstanceAs (Decidable True)
  | .step i _ => inferInstanceAs (Decidable (∀ t ∈ x.threads[i]?, t.keepsWithin x.shared))

theorem Run.within_iff {o : Options} {G : Guard} {x y : Config} (hx : Run o G x) {m : Move}
    (hf : (program o).fire x m = some y) (hw : x.shared.within) :
    y.shared.within ↔ keepsWithin x m := by
  cases m with
  | call c =>
      cases hf
      exact iff_of_true hw trivial
  | step i a =>
      obtain ⟨t, r, ht, hn, rfl⟩ := Program.fire_step _ hf
      have hs := program_step hn
      constructor
      · intro hy u hu
        obtain rfl := Option.some.inj (ht.symm.trans hu)
        exact hs.keepsWithin (hx.bounded.2 i t ht) hy
      · exact fun hk => hs.within hw (hk t ht)

theorem Run.freeTells_iff {o : Options} {G : Guard} {x : Config} (hx : Run o G x) :
    x.shared.freeTells ↔ x.shared.within :=
  PoolCore.freeTells_iff hx.bounded.1.capacity_pos

/-- In every run `free` says what it is meant to, in every state, just when no `tune` stores
a size below the running workers and no caller starts a worker on a capacity that is no longer
there; and in any one state just when the running workers are within the capacity. -/
theorem free_tells_iff {o : Options} {h : List PoolEvent} {x : Config}
    (hx : Traced o anyMove h x) :
    (((∀ e ∈ h, e.before.shared.freeTells) ∧ x.shared.freeTells) ↔
      ∀ e ∈ h, keepsWithin e.before e.move) ∧
    (x.shared.freeTells ↔ x.shared.capacity = -1 ∨ x.shared.running ≤ x.shared.capacity) := by
  refine ⟨?_, Run.freeTells_iff (G := anyMove) hx.reach⟩
  refine Program.Trace.forall_iff (J := fun x => x.shared.freeTells) ?_ ?_ hx
  · intro y hy
    have hfresh := hy.fresh
    rw [PoolCore.freeTells_iff hfresh.capacity, PoolCore.within, hfresh.running]
    exact hfresh.capacity.imp id fun h => by omega
  · intro y m z hy hf htells
    have hz : Run o anyMove z := .move m hy trivial hf
    rw [hz.freeTells_iff]
    exact Run.within_iff hy hf ((Run.freeTells_iff hy).mp htells)

/-- One worker runs, and a `tune` leaves it the only slot. -/
theorem free_tells_iff_tuned :
    ∃ h x, Traced smallOptions anyMove h x ∧ x.threads[4]? = some (.tune .returned) ∧
      x.shared.capacity = 1 ∧ x.shared.running = 1 ∧ x.shared.freeTells := by
  obtain ⟨h, x, hx, hφ⟩ := Program.Trace.exists_of_trace (P := program smallOptions)
    (I := Starts smallOptions) (G := anyMove) (x := pairPool)
    (m := .call (.submit false) :: steps 2 7 ++ .call (.tune 1) :: steps 4 2)
    (φ := fun h x => decide ((∀ e ∈ h, keepsWithin e.before e.move) ∧
      x.threads[4]? = some (Thread.tune .returned) ∧ x.shared.capacity = 1 ∧
      x.shared.running = 1)) pairPool_starts (by decide)
  obtain ⟨hkeeps, htune, hcapacity, hrunning⟩ := of_decide_eq_true hφ
  exact ⟨h, x, hx, htune, hcapacity, hrunning, ((free_tells_iff hx).1.mpr hkeeps).2⟩

/-- A call that has not returned. -/
def Thread.calling : Thread → Bool
  | .submit ⟨_, _, .ok _⟩ | .submit ⟨_, _, .err _⟩ | .release ⟨_, _, _, .returned _⟩
  | .reboot .returned | .tune .returned => false
  | .submit _ | .release _ | .reboot _ | .tune _ => true
  | .work _ | .purge _ | .ticktock _ | .clock => false

/-- Two workers are parked and the capacity is one: `free` is the mark of an unlimited pool. -/
theorem free_marks_tuned_pool :
    Run smallOptions anyMove shrunkPool ∧ (∀ t ∈ shrunkPool.threads, t.calling = false) ∧
      shrunkPool.shared.capacity = 1 ∧ shrunkPool.shared.running = 2 ∧
      shrunkPool.shared.free = -1 ∧ ¬ shrunkPool.shared.freeTells :=
  ⟨.move _ tunedPool_run trivial shrunkPool_fire, by decide, by decide, by decide, by decide,
    by decide⟩

end AntsPool
