import AntsPool.Capacity
import AntsPool.LastUsed
import AntsPool.Load

/-!
# A pool that is tuned down

`tune` stores the new capacity and stops nobody: callers take parked workers without a
look at the capacity, and a worker is shed when it next comes back. What the store does
limit is the start of new workers, but for one caller that has read the capacity before
it.
-/
namespace AntsPool
open Interleaving ListTotals

namespace Thread

/-- A caller that has read the capacity and may start a worker on it. -/
def mayStart : Thread → Bool
  | .submit ⟨_, _, .readRunning _⟩ | .submit ⟨_, _, .spawn⟩ | .submit ⟨_, _, .run _⟩ => true
  | _ => false

/-- A caller that has been handed worker `w` and is about to send it the payload. -/
def takes (w : ℕ) : Thread → Bool
  | .submit ⟨_, _, .input v⟩ => v = w
  | _ => false

/-- A running worker that runs a payload, has one in its channel or belongs to a caller. -/
def engaged (x : Config) (t : Thread) : Bool :=
  t.counted && (t.tasked x.shared || x.threads.any (takes t.workerOf))

end Thread

def busyWorkers (x : Config) : ℤ := x.threads.countP (Thread.engaged x)

/-- One when a caller is between its reading of the capacity and the start of a worker. -/
def startingCallers (x : Config) : ℤ := x.threads.countP Thread.mayStart

/-- A `tune` about to store its size. -/
def Thread.storesCapacity : Thread → Bool
  | .tune (.store _ _) => true
  | _ => false

/-- No `tune` stores a capacity. -/
def noStore (x : Config) : Move → Prop
  | .call _ => True
  | .step i _ => ∀ t ∈ x.threads[i]?, t.storesCapacity = false

instance (x : Config) : (m : Move) → Decidable (noStore x m)
  | .call _ => inferInstanceAs (Decidable True)
  | .step i _ => inferInstanceAs (Decidable (∀ t ∈ x.threads[i]?, t.storesCapacity = false))

theorem Run.busy_le_running {o : Options} {G : Guard} {x : Config} (h : Run o G x) :
    busyWorkers x ≤ x.shared.running := by
  rw [h.running_eq]
  have hle : x.threads.countP (Thread.engaged x) ≤ x.threads.countP Thread.counted :=
    List.countP_mono_left fun t _ ht => (Bool.and_eq_true_iff.mp ht).1
  unfold busyWorkers
  exact_mod_cast hle

/-! ## The bound on the running workers -/

/-- Room for one more worker within `bound`, as far as a caller that may start one knows:
it has read the capacity `size`, or the place is free. -/
def Thread.fits (size bound : ℤ) (s : PoolCore) : Thread → Prop
  | .submit ⟨_, _, .readRunning c⟩ => c = size ∨ s.running + 1 ≤ bound
  | .submit ⟨_, _, .spawn⟩ | .submit ⟨_, _, .run _⟩ => s.running + 1 ≤ bound
  | _ => True

namespace Thread
variable {size bound : ℤ} {s s' : PoolCore}

theorem fits_of_room {t : Thread} (h : t.mayStart = true → s.running + 1 ≤ bound) :
    t.fits size bound s := by
  cases t with
  | submit t =>
      obtain ⟨p, b, pc⟩ := t
      cases pc with
      | readRunning c => exact .inr (h rfl)
      | spawn | run => exact h rfl
      | _ => trivial
  | _ => trivial

/-- The others keep their room, unless a worker is started. -/
theorem fits_mono {t : Thread} (hr : s'.running ≤ s.running ∨ t.holdsLock = false)
    (h : t.fits size bound s) : t.fits size bound s' := by
  cases t with
  | submit t =>
      obtain ⟨p, b, pc⟩ := t
      cases pc with
      | readRunning c =>
          have hle := hr.resolve_right nofun
          exact h.imp id fun h => by omega
      | spawn | run =>
          have hle := hr.resolve_right nofun
          have hroom : s.running + 1 ≤ bound := h
          change s'.running + 1 ≤ bound
          omega
      | _ => trivial
  | _ => trivial

/-- A caller passes the test on the stored capacity, or on the one that it has read before. -/
theorem Step.fits {o : Options} {i : ℕ} {t t' : Thread} {new : List Thread} (hpos : 0 < size)
    (hle : size ≤ bound) (hcap : s.capacity = size) (h : Thread.Step o i s t s' t' new)
    (ht : t.fits size bound s) : t'.fits size bound s' := by
  cases h with
  | submit h =>
      cases h with
      | unlimited hc => omega
      | bounded => exact .inl hcap
      | @room p b c hlt =>
          change s.running + 1 ≤ bound
          rcases ht with rfl | hroom
          · omega
          · exact hroom
      | spawnCached | spawnNew => exact ht
      | _ => trivial
  | _ => trivial

end Thread

/-- From a store of `size` on, and until the next one, the running workers stay within
`size` or within those that were running and being started. -/
theorem Run.shrunk_running {o : Options} {y z : Config} (hy : Run o anyMove y)
    (hpos : 0 < y.shared.capacity)
    (hz : (program o).Reach (fun x => x = y) noStore z) :
    z.shared.running ≤ max y.shared.capacity (y.shared.running + startingCallers y) := by
  have hall := Program.Reach.invariant_threads
    (J := fun s => s.capacity = y.shared.capacity ∧
      s.running ≤ max y.shared.capacity (y.shared.running + startingCallers y))
    (φ := fun s _ t => t.fits y.shared.capacity
      (max y.shared.capacity (y.shared.running + startingCallers y)) s) ?_ ?_ ?_ hz
  · exact hall.1.2
  · rintro x rfl
    have hnonneg : 0 ≤ startingCallers x := Int.natCast_nonneg _
    refine ⟨⟨rfl, le_max_of_le_right (by omega)⟩, fun i t ht => Thread.fits_of_room fun hm => ?_⟩
    have hone : 0 < x.threads.countP Thread.mayStart :=
      List.countP_pos_iff.mpr ⟨t, List.mem_of_getElem? ht, hm⟩
    refine le_max_of_le_right ?_
    unfold startingCallers
    omega
  · intro x c _ _ _
    cases c <;> trivial
  · intro x i a t r hx ⟨hcap, hrun⟩ hφ hg ht hn
    have hs := program_step hn
    have hx' : Run o anyMove x := hy.trans (hx.weaken fun _ _ _ => trivial)
    have hcap' : r.1.capacity = x.shared.capacity := by
      rcases hs.capacity_cases with ⟨size, c, rfl, _⟩ | ⟨hc, _⟩
      · cases hg _ ht
      · exact hc
    refine ⟨⟨hcap'.trans hcap, ?_⟩, hs.fits hpos (le_max_left _ _) hcap (hφ i t ht), ?_, ?_⟩
    · rcases hs.running_cases with ⟨p, b, w, rfl, hr⟩ | ⟨_, _, _, hr⟩ | hr
      · rw [hr]
        exact hφ i _ ht
      · omega
      · omega
    · intro u hu j _
      rcases hs.new_cases hu with ⟨_, rfl⟩ | rfl | rfl <;> trivial
    · intro j u hj hu
      refine Thread.fits_mono ?_ (hφ j u hu)
      rcases hs.running_cases with ⟨p, b, w, rfl, _⟩ | ⟨_, _, _, hr⟩ | hr
      · -- whoever starts a worker has the lock, so nobody else is about to
        cases hlock : u.holdsLock with
        | false => exact .inr rfl
        | true => exact (hj (hx'.holder_unique hu ht hlock rfl)).elim
      · exact .inl (by omega)
      · exact .inl hr.le

/-- Once a `tune` to a smaller size has returned, and until the next one stores, the busy
workers stay within that size or within the workers that were running then, busy or
parked, with the one that a caller is about to start. -/
theorem tuned_down_bounds_busy {o : Options} {x y z : Config} (hx : Run o anyMove x) {i : ℕ}
    {size c : ℤ} {a : Env} (ht : x.threads[i]? = some (.tune (.store size c))) (hlt : size < c)
    (hf : (program o).fire x (.step i a) = some y)
    (hz : (program o).Reach (fun w => w = y) noStore z) :
    y.threads[i]? = some (.tune .returned) ∧ y.shared.capacity = size ∧ 0 < size ∧
      busyWorkers z ≤ max size (y.shared.running + startingCallers y) := by
  have hy : Run o anyMove y := .move (.step i a) hx trivial hf
  have hpos : 1 ≤ size := (hx.bounded.2 i _ ht).1
  obtain ⟨t, r, ht', hn, rfl⟩ := Program.fire_step _ hf
  obtain rfl := Option.some.inj (ht.symm.trans ht')
  obtain ⟨s', t', new⟩ := r
  have hs := program_step hn
  have hret : t' = .tune .returned ∧ s'.capacity = size := by
    cases hs with
    | tune hs =>
        cases hs with
        | shrink => exact ⟨rfl, rfl⟩
        | growOne hg | grow hg => omega
  have hcap : (x.after i (s', t', new)).shared.capacity = size := hret.2
  have hrun := hy.shrunk_running (by omega) hz
  have hz' : Run o anyMove z := hy.trans (hz.weaken fun _ _ _ => trivial)
  have hbusy := hz'.busy_le_running
  rw [hcap] at hrun
  exact ⟨hret.1 ▸ Config.getElem?_after_self ht, hcap, by omega, hbusy.trans hrun⟩

/-- Two workers are parked, and a `tune` to one slot is about to store. -/
def tunedMoves : List Move := pairMoves ++ steps 3 8 ++ steps 5 8 ++ .call (.tune 1) :: steps 6 1

def tunedPool : Config := ((program smallOptions).run anyMove pairPool tunedMoves).get (by decide)

theorem tunedPool_run : Run smallOptions anyMove tunedPool :=
  Program.Reach.run (.init pairPool_starts) (Option.some_get _).symm

def shrunkPool : Config := ((program smallOptions).fire tunedPool (.step 6 .ok)).get (by decide)

theorem shrunkPool_fire : (program smallOptions).fire tunedPool (.step 6 .ok) = some shrunkPool :=
  (Option.some_get _).symm

/-- The bound is met: two callers take the parked workers. -/
theorem tuned_down_bounds_busy_parked :
    ∃ z, (program smallOptions).Reach (fun w => w = shrunkPool) noStore z ∧ busyWorkers z = 2 ∧
      busyWorkers z ≤ max 1 (shrunkPool.shared.running + startingCallers shrunkPool) := by
  obtain ⟨z, hz, hφ⟩ := Program.Reach.exists_of_run (P := program smallOptions)
    (I := fun w => w = shrunkPool) (G := noStore) (x := shrunkPool)
    (m := .call (.submit false) :: steps 7 2 ++ .call (.submit false) :: steps 8 2)
    (φ := fun z => decide (busyWorkers z = 2)) rfl (by decide)
  have ht : tunedPool.threads[6]? = some (.tune (.store 1 2)) := by decide
  obtain ⟨_, _, _, hle⟩ :=
    tuned_down_bounds_busy tunedPool_run ht (by decide) shrunkPool_fire hz
  exact ⟨z, hz, of_decide_eq_true hφ, hle⟩

/-- No worker is busy when the `tune` to one slot returns, and then two submits are handed
one each. -/
theorem tuned_down_hands_out_parked :
    Run smallOptions anyMove shrunkPool ∧ tunedPool.shared.capacity = 2 ∧
    shrunkPool.threads[6]? = some (.tune .returned) ∧ shrunkPool.shared.capacity = 1 ∧
    busyWorkers shrunkPool = 0 ∧
    ∃ z, (program smallOptions).Reach (fun w => w = shrunkPool) noStore z ∧
      z.threads[8]? = some (.submit ⟨⟨8, false⟩, false, .input 0⟩) ∧ busyWorkers z = 2 := by
  refine ⟨.move _ tunedPool_run trivial shrunkPool_fire, by decide, by decide, by decide,
    by decide, ?_⟩
  obtain ⟨z, hz, hφ⟩ := Program.Reach.exists_of_run (P := program smallOptions)
    (I := fun w => w = shrunkPool) (G := noStore) (x := shrunkPool)
    (m := .call (.submit false) :: steps 7 3 ++ .call (.submit false) :: steps 8 2)
    (φ := fun z => decide (z.threads[8]? = some (Thread.submit ⟨⟨8, false⟩, false, .input 0⟩) ∧
      busyWorkers z = 2)) rfl (by decide)
  exact ⟨z, hz, of_decide_eq_true hφ⟩

end AntsPool
