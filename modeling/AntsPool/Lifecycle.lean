import AntsPool.ClosedQueue

/-!
# Calls that close and reopen a pool

A release is releasing from its exchange until it is past its latch step. A
reboot is reopening from its exchange until it has put in the new latch. When
the calls do not overlap, only the latest closer can be releasing and an open
state is the only one in which a reboot can be reopening.
-/
namespace AntsPool
open Interleaving

/-- From the exchange of `release()` to its last step. -/
def ReleasePc.releasing : ReleasePc → Bool
  | .takePurge | .cancelPurge _ | .takeTicktock | .cancelTicktock _ | .reset | .broadcast
  | .checkRunning | .latchFetch | .latchClose _ => true
  | _ => false

/-- From the exchange of `reboot()` to its last step. -/
def Reboot.reopening : Reboot → Bool
  | .clearPurge | .purgeCtx | .purgeStop _ | .purgeSpawn | .clearTicktock | .ticktockNow
  | .ticktockCtx | .ticktockStop _ | .ticktockSpawn | .replaceLatch => true
  | _ => false

namespace Thread

def releasing : Thread → Bool
  | .release t => t.pc.releasing
  | _ => false

def reopening : Thread → Bool
  | .reboot t => t.reopening
  | _ => false

/-- A call of `release`, `release_context` or `reboot` that has not returned. -/
def lifecycle : Thread → Bool
  | .release ⟨_, _, _, .returned _⟩ => false
  | .release _ => true
  | .reboot .returned => false
  | .reboot _ => true
  | _ => false

/-- A call of `release` or `release_context`, also one that has returned. -/
def isRelease : Thread → Bool
  | .release _ => true
  | _ => false

theorem lifecycle_of_releasing {t : Thread} (h : t.releasing = true) : t.lifecycle = true := by
  cases t with
  | release t =>
      obtain ⟨m, p, k, pc⟩ := t
      cases pc <;> first | rfl | cases h
  | _ => cases h

theorem lifecycle_of_reopening {t : Thread} (h : t.reopening = true) : t.lifecycle = true := by
  cases t with
  | reboot t =>
      cases t <;> first | rfl | cases h
  | _ => cases h

end Thread

/-- Calls that close or reopen the pool come in only when no other is in progress. -/
def nonOverlapping (x : Config) : Move → Prop
  | .call .release | .call (.releaseContext _) | .call .reboot =>
      ∀ t ∈ x.threads, t.lifecycle = false
  | _ => True

instance (x : Config) : (m : Move) → Decidable (nonOverlapping x m)
  | .call .release | .call (.releaseContext _) | .call .reboot =>
      inferInstanceAs (Decidable (∀ t ∈ x.threads, t.lifecycle = false))
  | .call (.submit _) | .call (.tune _) | .step _ _ => inferInstanceAs (Decidable True)

theorem Thread.Step.lifecycle {o : Options} {i : ℕ} {s s' : PoolCore} {t t' : Thread}
    {new : List Thread} (h : Thread.Step o i s t s' t' new) (ht : t'.lifecycle = true) :
    t.lifecycle = true := by
  cases h with
  | release h => cases h <;> rfl
  | reboot h => cases h <;> rfl
  | submit h => cases ht
  | work h => cases ht
  | purge h => cases ht
  | ticktock h => cases ht
  | tune h => cases ht
  | clock => cases ht

/-- What a step does to the state of the pool. -/
inductive StateStep (i : ℕ) (s : PoolCore) (t : Thread) (s' : PoolCore) (t' : Thread) : Prop
  | close (ho : s.state = .opened) (hs : s'.state = .closed) (hc : s'.past.closer = some i)
      (ht : t.lifecycle = true) (ht' : t'.releasing = true) (hn : t'.reopening = false)
  | reopen (ho : s.state = .closed) (hs : s'.state = .opened)
      (ht : t.lifecycle = true) (ht' : t'.reopening = true) (hn : t'.releasing = false)
  | same (hs : s'.state = s.state) (hc : s'.past.closer = s.past.closer)
      (hr : t'.releasing = true → t.releasing = true)
      (hn : t'.reopening = true → t.reopening = true)

theorem Thread.Step.stateStep {o : Options} {i : ℕ} {s s' : PoolCore} {t t' : Thread}
    {new : List Thread} (h : Thread.Step o i s t s' t' new) : StateStep i s t s' t' := by
  cases h with
  | release h =>
      cases h with
      | exchange ho => exact .close ho rfl rfl rfl rfl rfl
      | reset =>
          exact .same (Release.reset_state i s) (by rw [Release.reset_past]) (fun _ => rfl) id
      | exchangeFails _ ha | busy _ ha | latchClose ha =>
          cases ha <;> exact .same rfl rfl (fun h => (by cases h)) id
      | _ => exact .same rfl rfl (fun h => by first | rfl | cases h) id
  | reboot h =>
      cases h with
      | exchange ho => exact .reopen ho rfl rfl rfl rfl
      | _ => exact .same rfl rfl id fun h => by first | rfl | cases h
  | submit h => cases h <;> exact .same rfl rfl id id
  | work h => cases h <;> exact .same rfl rfl id id
  | purge h => cases h <;> exact .same rfl rfl id id
  | ticktock h => cases h <;> exact .same rfl rfl id id
  | tune h => cases h <;> exact .same rfl rfl id id
  | clock => exact .same rfl rfl id id

namespace Run
variable {o : Options} {G : Guard} {x : Config}

/-- At most one of these calls is in progress. -/
theorem lifecycle_unique (hG : ∀ x m, G x m → nonOverlapping x m) (h : Run o G x) :
    ∀ (i j : ℕ) (t u : Thread), x.threads[i]? = some t → x.threads[j]? = some u →
      t.lifecycle = true → u.lifecycle = true → i = j := by
  refine Run.invariant (J := fun x => ∀ (i j : ℕ) (t u : Thread), x.threads[i]? = some t →
    x.threads[j]? = some u → t.lifecycle = true → u.lifecycle = true → i = j) ?_ ?_ ?_ h
  · intro y hy i j t u hi _ ht
    rcases hy.threads t (List.mem_of_getElem? hi) with rfl | rfl | rfl <;> cases ht
  · intro y c _ hy hg i j t u hi hj ht hu
    have hnone : (c.start y.threads.length).lifecycle = true →
        ∀ w ∈ y.threads, w.lifecycle = false := by
      intro hc
      have hguard := hG _ _ hg
      cases c with
      | submit | tune => cases hc
      | release | releaseContext | reboot => exact hguard
    rcases getElem?_concat_cases hi with hi | ⟨rfl, rfl⟩
    · rcases getElem?_concat_cases hj with hj | ⟨rfl, rfl⟩
      · exact hy i j t u hi hj ht hu
      · cases (hnone hu t (List.mem_of_getElem? hi)).symm.trans ht
    · rcases getElem?_concat_cases hj with hj | ⟨rfl, rfl⟩
      · cases (hnone ht u (List.mem_of_getElem? hj)).symm.trans hu
      · rfl
  · intro y k a v s' v' new _ hy _ hk hs i j t u hi hj ht hu
    have hold : ∀ (l : ℕ) (w : Thread), (y.after k (s', v', new)).threads[l]? = some w →
        w.lifecycle = true → ∃ w' : Thread, y.threads[l]? = some w' ∧ w'.lifecycle = true := by
      intro l w hl hw
      rcases Config.getElem?_after hk hl with ⟨rfl, rfl⟩ | ⟨_, hl⟩ | ⟨_, hnew⟩
      · exact ⟨v, hk, hs.lifecycle hw⟩
      · exact ⟨w, hl, hw⟩
      · rcases hs.new_cases hnew with ⟨_, rfl⟩ | rfl | rfl <;> cases hw
    obtain ⟨t₀, hi₀, ht₀⟩ := hold i t hi ht
    obtain ⟨u₀, hj₀, hu₀⟩ := hold j u hj hu
    exact hy i j t₀ u₀ hi₀ hj₀ ht₀ hu₀

/-- When calls do not overlap, only the latest closer is releasing, in a closed
pool, and only an open pool is being reopened. -/
theorem lifecycle_state (hG : ∀ x m, G x m → nonOverlapping x m) (h : Run o G x) (i : ℕ)
    (t : Thread) (ht : x.threads[i]? = some t) :
    (t.releasing = true → x.shared.state = .closed ∧ x.shared.past.closer = some i) ∧
      (t.reopening = true → x.shared.state = .opened) := by
  refine (Run.invariant_newborn (J := fun _ => True) (φ := fun s i t =>
    (t.releasing = true → s.state = .closed ∧ s.past.closer = some i) ∧
      (t.reopening = true → s.state = .opened)) (fun _ _ => trivial) ?_ ?_ ?_ h).2 i t ht
  · intro s i t hb
    rcases hb with (rfl | rfl | rfl) | ⟨w, rfl⟩ <;>
      exact ⟨fun h => (by cases h), fun h => (by cases h)⟩
  · intro y c _ _ _
    cases c <;> exact ⟨fun h => (by cases h), fun h => (by cases h)⟩
  · intro y k a v s' v' new hr _ hv _ hk hs
    refine ⟨trivial, ?_, fun j u hj hu => ?_⟩
    · obtain ⟨hrel, hre⟩ := hv k v hk
      cases hs.stateStep with
      | close ho hc hcl ht ht' hn => exact ⟨fun _ => ⟨hc, hcl⟩, fun h => (by cases hn.symm.trans h)⟩
      | reopen ho hc ht ht' hn => exact ⟨fun h => (by cases hn.symm.trans h), fun _ => hc⟩
      | same hc hcl hr hn =>
          rw [hc, hcl]
          exact ⟨fun h => hrel (hr h), fun h => hre (hn h)⟩
    · obtain ⟨hrel, hre⟩ := hv j u hu
      have halone : v.lifecycle = true → u.lifecycle = false := by
        intro hv
        cases hl : u.lifecycle with
        | false => rfl
        | true => exact (hj (hr.lifecycle_unique hG _ _ _ _ hu hk hl hv)).elim
      cases hs.stateStep with
      | close ho hc hcl ht ht' hn =>
          refine ⟨fun h => ?_, fun h => ?_⟩
          · cases (halone ht).symm.trans (Thread.lifecycle_of_releasing h)
          · cases (halone ht).symm.trans (Thread.lifecycle_of_reopening h)
      | reopen ho hc ht ht' hn =>
          refine ⟨fun h => ?_, fun h => ?_⟩
          · cases (halone ht).symm.trans (Thread.lifecycle_of_releasing h)
          · cases (halone ht).symm.trans (Thread.lifecycle_of_reopening h)
      | same hc hcl hr hn =>
          rw [hc, hcl]
          exact ⟨hrel, hre⟩

end Run

end AntsPool
