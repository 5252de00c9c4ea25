import AntsPool.Capacity
import AntsPool.Lifecycle

/-!
# What a successful `release_context` leaves behind

Its final test reads `running` first and the two done flags after it. From a
reading of zero on only a spawn can bring a worker back, and a caller that passed
the closed check before the close is not stopped from one: `retrieve_worker` looks
at the state only after it has waited.
-/
namespace AntsPool
open Interleaving

namespace Thread

/-- A call of `release_context` with a context that has read `running` as zero in
its final test, up to its successful return. -/
def passedTest : Thread → Bool
  | .release t =>
      match t.pc with
      | .returned none => t.mode = .context true
      | .testPurgeDone _ | .testTicktockDone _ => true
      | _ => false
  | _ => false

def spawning : Thread → Bool
  | .submit ⟨_, _, .run _⟩ => true
  | _ => false

/-- A worker that runs a payload. -/
def executing : Thread → Bool
  | .work ⟨_, _, .call _⟩ => true
  | _ => false

theorem counted_of_executing {t : Thread} (h : t.executing = true) : t.counted = true := by
  cases t with
  | work t =>
      obtain ⟨w, b, pc⟩ := t
      cases pc <;> first | rfl | cases h
  | _ => cases h

/-- The final test is passed on a reading of zero. -/
theorem Step.passedTest {o : Options} {i : ℕ} {s s' : PoolCore} {t t' : Thread}
    {new : List Thread} (h : Thread.Step o i s t s' t' new) (ht' : t'.passedTest = true) :
    s'.running = s.running ∧ (s.running = 0 ∨ t.passedTest = true) := by
  cases h with
  | release h =>
      cases h with
      | exchangeFails _ ha | busy _ ha | latchClose ha => cases ha <;> cases ht'
      | quietPurge h0 | quietNoPurge h0 => exact ⟨rfl, .inl h0⟩
      | purgeDone | ticktockDone => exact ⟨rfl, .inr rfl⟩
      | _ => cases ht'
  | _ => cases ht'

end Thread

/-- No reboot comes in, and no caller spawns a worker once a `release_context` has
read `running` as zero in its final test. -/
def noLateSpawn (x : Config) : Move → Prop
  | .call .reboot => False
  | .call _ => True
  | .step i _ => (∃ t, x.threads[i]? = some t ∧ t.spawning = true) →
      ∀ u ∈ x.threads, u.passedTest = false

instance (x : Config) : (m : Move) → Decidable (noLateSpawn x m)
  | .call (.submit _) | .call (.tune _) | .call .release | .call (.releaseContext _) =>
      inferInstanceAs (Decidable True)
  | .call .reboot => inferInstanceAs (Decidable False)
  | .step i _ =>
      decidable_of_iff ((x.threads[i]?.any Thread.spawning) = true →
        ∀ u ∈ x.threads, u.passedTest = false) (by
          simp only [Option.any_eq_true, noLateSpawn])

theorem Run.passedTest_running {o : Options} {x : Config} (h : Run o noLateSpawn x) :
    ∀ u ∈ x.threads, u.passedTest = true → x.shared.running = 0 := by
  refine Run.invariant
    (J := fun x => ∀ u ∈ x.threads, u.passedTest = true → x.shared.running = 0) ?_ ?_ ?_ h
  · intro y hy u hu ht
    rcases hy.threads u hu with rfl | rfl | rfl <;> cases ht
  · intro y c _ hy _ u hu ht
    rcases List.mem_append.mp hu with hu | hu
    · exact hy u hu ht
    · obtain rfl := List.mem_singleton.mp hu
      cases c <;> cases ht
  · intro y i a t s' t' new hr hy hg ht hs u hu hpass
    have hmem := List.mem_of_getElem? ht
    change s'.running = 0
    rcases Config.mem_after hu with hu | rfl | hu
    · have h0 := hy u hu hpass
      rcases hs.running_cases with ⟨p, b, w, rfl, _⟩ | ⟨w, b, rfl, _⟩ | hrun
      · cases (hg ⟨_, ht, rfl⟩ u hu).symm.trans hpass
      · have hpos := hr.running_pos hmem rfl
        omega
      · rw [hrun, h0]
    · obtain ⟨hrun, h0 | hpass⟩ := hs.passedTest hpass
      · rw [hrun, h0]
      · rw [hrun, hy t hmem hpass]
    · rcases hs.new_cases hu with ⟨w, rfl⟩ | rfl | rfl <;> cases hpass

/-- Without late spawns, a `release_context` that returned `Ok` is a barrier: no
worker is running and no payload is executing. -/
theorem release_context_is_barrier {o : Options} {x : Config} (h : Run o noLateSpawn x)
    {t : Release} (ht : Thread.release t ∈ x.threads) (hm : t.mode = .context true)
    (hok : t.pc = .returned none) :
    x.shared.running = 0 ∧ ∀ u ∈ x.threads, u.executing = false := by
  have h0 := h.passedTest_running _ ht (by simp [Thread.passedTest, hm, hok])
  refine ⟨h0, fun u hu => ?_⟩
  cases hex : u.executing with
  | false => rfl
  | true =>
      have hpos := h.running_pos hu (Thread.counted_of_executing hex)
      omega

/-- A worker runs a payload while `release_context` closes the pool and waits. The clock
thread ends, the worker exits and closes the latch, and the call returns `Ok`. -/
theorem release_context_is_barrier_small :
    ∃ x, Run smallOptions noLateSpawn x ∧ x.shared.past.received = [(2, 0)] ∧
      x.shared.running = 0 ∧
      Thread.release ⟨.context true, none, some 1, .returned none⟩ ∈ x.threads := by
  obtain ⟨x, hx, hφ⟩ := Program.Reach.exists_of_run
    (P := program smallOptions) (I := Starts smallOptions) (G := noLateSpawn) (x := smallPool)
    (m := .call (.submit false) :: steps 2 7 ++ steps 3 1 ++ .call (.releaseContext true) ::
      steps 4 14 ++ steps 1 3 ++ steps 3 11 ++ steps 4 6)
    (φ := fun x => decide (x.shared.past.received = [(2, 0)] ∧
      Thread.release ⟨.context true, none, some 1, .returned none⟩ ∈ x.threads))
    smallPool_starts (by decide)
  obtain ⟨hreceived, ht⟩ := of_decide_eq_true hφ
  exact ⟨x, hx, hreceived, (release_context_is_barrier hx ht rfl rfl).1, ht⟩

/-- Submits and one call of `release_context` with a context. -/
def oneReleaseContext (x : Config) : Move → Prop
  | .call (.submit _) | .step _ _ => True
  | .call (.releaseContext true) => ∀ t ∈ x.threads, t.isRelease = false
  | _ => False

instance (x : Config) : (m : Move) → Decidable (oneReleaseContext x m)
  | .call (.submit _) | .step _ _ => inferInstanceAs (Decidable True)
  | .call (.releaseContext true) =>
      inferInstanceAs (Decidable (∀ t ∈ x.threads, t.isRelease = false))
  | .call (.releaseContext false) | .call (.tune _) | .call .release | .call .reboot =>
      inferInstanceAs (Decidable False)

/-- A caller passes the closed check, `release_context` closes the empty pool and
returns `Ok`, and the caller spawns a worker that runs its payload. -/
theorem release_context_overtaken_by_submit :
    ∃ x, Run smallOptions oneReleaseContext x ∧
      Thread.release ⟨.context true, none, some 1, .returned none⟩ ∈ x.threads ∧
      x.shared.running = 1 ∧ Thread.work ⟨0, false, .call ⟨2, false⟩⟩ ∈ x.threads := by
  obtain ⟨x, hx, hφ⟩ := Program.Reach.exists_of_run
    (P := program smallOptions) (I := Starts smallOptions) (G := oneReleaseContext)
    (x := smallPool)
    (m := .call (.submit false) :: steps 2 1 ++ .call (.releaseContext true) :: steps 3 9 ++
      steps 1 3 ++ steps 3 11 ++ steps 2 6 ++ steps 4 1)
    (φ := fun x => decide (Thread.release ⟨.context true, none, some 1, .returned none⟩ ∈
      x.threads ∧ x.shared.running = 1 ∧
      Thread.work ⟨0, false, .call ⟨2, false⟩⟩ ∈ x.threads)) smallPool_starts (by decide)
  exact ⟨x, hx, of_decide_eq_true hφ⟩

end AntsPool
