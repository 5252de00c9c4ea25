import AntsPool.Draining
import AntsPool.Handles
import AntsPool.Latch
import AntsPool.Preallocated

/-!
# Calls that close and reopen a pool one after the other

When these calls do not overlap, a pool goes through epochs. In an open one each
background thread runs exactly once, with a context that is not cancelled. In a closed
one everything that goes on leads to the end that a reboot waits for, so neither a
release nor a reboot is ever stuck for good.
-/
namespace AntsPool
open Interleaving ListTotals

/-! ## The background threads of an epoch -/

namespace Run
variable {o : Options} {x : Config}

/-- A reboot finds the flags that it clears set. -/
theorem flags_stand (h : Run o nonOverlapping x) : Run o (flagsStand o) x := by
  refine Program.Reach.strengthen (fun y m hy _ => ?_) h
  cases m with
  | call c => trivial
  | step i a =>
      intro t ht
      have hstanding := (Run.standing (fun _ _ => id) hy).2 i t ht
      refine ⟨?_, ?_⟩
      · rintro rfl hd
        exact (hstanding rfl).2.2.2.1 hd
      · rintro rfl
        exact (hstanding rfl).2.2.2

/-- A done flag, the thread that is to set it and the reboot about to start that thread
are one at most. -/
theorem flags (h : Run o nonOverlapping x) :
    x.shared.purgeDone.toNat + x.threads.countP Thread.purgeDue ≤ 1 ∧
      x.shared.ticktockDone.toNat + x.threads.countP Thread.ticktockDue ≤ 1 := by
  constructor
  · refine Run.flag_le (f := PoolCore.purgeDone) (fun y hy => hy.flags.1) ?_ ?_ h.flags_stand
    · intro i c
      cases c <;> rfl
    · intro y i a t s' t' new hg ht hs
      exact hs.purgeStep (hg t ht).1
  · refine Run.flag_le (f := PoolCore.ticktockDone) (fun y hy => hy.flags.2) ?_ ?_ h.flags_stand
    · intro i c
      cases c <;> rfl
    · intro y i a t s' t' new hg ht hs
      exact hs.ticktockStep (hg t ht).2

end Run

namespace Thread

/-- The duty to set the flag of the scavenger passes on until it is done. -/
theorem Step.purge_kept {o : Options} {i : ℕ} {s s' : PoolCore} {t t' : Thread}
    {new : List Thread} (h : Thread.Step o i s t s' t' new) (hd : o.disablePurge = false) :
    (s.purgeDone = true → s'.purgeDone = true ∨ t'.purgeDue = true) ∧
      (t.purgeDue = true →
        s'.purgeDone = true ∨ t'.purgeDue = true ∨ ∃ u ∈ new, u.purgeDue = true) := by
  cases h with
  | reboot h =>
      cases h with
      | clearPurge => exact ⟨fun _ => .inr rfl, nofun⟩
      | clearNoPurge hd' => cases hd.symm.trans hd'
      | purgeCtx | purgeStop => exact ⟨.inl, fun _ => .inr (.inl rfl)⟩
      | purgeSpawn => exact ⟨.inl, fun _ => .inr (.inr ⟨_, List.mem_singleton_self _, rfl⟩)⟩
      | _ => exact ⟨.inl, nofun⟩
  | purge h =>
      cases h with
      | done => exact ⟨fun _ => .inl rfl, fun _ => .inl rfl⟩
      | _ => exact ⟨.inl, fun _ => .inr (.inl rfl)⟩
  | release h =>
      cases h with
      | reset =>
          obtain ⟨_, _, hr, _⟩ := Release.reset_frame i s
          rw [hr]
          exact ⟨.inl, nofun⟩
      | _ => exact ⟨.inl, nofun⟩
  | submit h => cases h <;> exact ⟨.inl, nofun⟩
  | work h => cases h <;> exact ⟨.inl, nofun⟩
  | ticktock h => cases h <;> exact ⟨.inl, nofun⟩
  | tune h => cases h <;> exact ⟨.inl, nofun⟩
  | clock => exact ⟨.inl, nofun⟩

theorem Step.ticktock_kept {o : Options} {i : ℕ} {s s' : PoolCore} {t t' : Thread}
    {new : List Thread} (h : Thread.Step o i s t s' t' new) :
    (s.ticktockDone = true → s'.ticktockDone = true ∨ t'.ticktockDue = true) ∧
      (t.ticktockDue = true →
        s'.ticktockDone = true ∨ t'.ticktockDue = true ∨ ∃ u ∈ new, u.ticktockDue = true) := by
  cases h with
  | reboot h =>
      cases h with
      | clearTicktock => exact ⟨fun _ => .inr rfl, nofun⟩
      | ticktockNow | ticktockCtx | ticktockStop => exact ⟨.inl, fun _ => .inr (.inl rfl)⟩
      | ticktockSpawn => exact ⟨.inl, fun _ => .inr (.inr ⟨_, List.mem_singleton_self _, rfl⟩)⟩
      | _ => exact ⟨.inl, nofun⟩
  | ticktock h =>
      cases h with
      | done => exact ⟨fun _ => .inl rfl, fun _ => .inl rfl⟩
      | _ => exact ⟨.inl, fun _ => .inr (.inl rfl)⟩
  | release h =>
      cases h with
      | reset =>
          obtain ⟨_, _, hr, _⟩ := Release.reset_frame i s
          rw [hr]
          exact ⟨.inl, nofun⟩
      | _ => exact ⟨.inl, nofun⟩
  | submit h => cases h <;> exact ⟨.inl, nofun⟩
  | work h => cases h <;> exact ⟨.inl, nofun⟩
  | purge h => cases h <;> exact ⟨.inl, nofun⟩
  | tune h => cases h <;> exact ⟨.inl, nofun⟩
  | clock => exact ⟨.inl, nofun⟩

end Thread

namespace Run
variable {o : Options} {G : Guard} {x : Config}

/-- A flag that is not set is somebody's duty. -/
theorem flag_kept {f : PoolCore → Bool} {due : Thread → Bool}
    (init : ∀ x, Starts o x → ∃ t ∈ x.threads, due t = true)
    (step : ∀ i s s' t t' new, Thread.Step o i s t s' t' new →
      (f s = true → f s' = true ∨ due t' = true) ∧
      (due t = true → f s' = true ∨ due t' = true ∨ ∃ u ∈ new, due u = true))
    (h : Run o G x) : f x.shared = true ∨ ∃ t ∈ x.threads, due t = true := by
  refine Program.Reach.invariant
    (J := fun x => f x.shared = true ∨ ∃ t ∈ x.threads, due t = true) ?_ ?_ ?_ h
  · exact fun y hy => .inr (init y hy)
  · exact fun y c _ hy _ => hy.imp_right fun ⟨t, ht, hd⟩ => ⟨t, List.mem_append_left _ ht, hd⟩
  · intro y i a t r _ hy _ ht hn
    obtain ⟨hflag, hdue⟩ := step i _ _ _ _ _ (program_step hn)
    have hself : due r.2.1 = true → ∃ u ∈ (y.after i r).threads, due u = true :=
      fun hd => ⟨_, List.mem_of_getElem? (Config.getElem?_after_self ht), hd⟩
    rcases hy with hf | ⟨u, hu, hd⟩
    · exact (hflag hf).imp_right hself
    · obtain ⟨j, hj⟩ := List.mem_iff_getElem?.mp hu
      by_cases hji : j = i
      · subst hji
        cases Option.some.inj (ht.symm.trans hj)
        refine (hdue hd).imp_right fun h => h.elim hself fun ⟨v, hv, hd⟩ => ⟨v, ?_, hd⟩
        exact List.mem_append_right _ hv
      · exact .inr ⟨u, List.mem_of_getElem? (Config.getElem?_after_ne hji hj), hd⟩

/-- The background threads are there or have set their flags. -/
theorem flags_kept (h : Run o G x) :
    (o.disablePurge = false →
      x.shared.purgeDone = true ∨ ∃ t ∈ x.threads, t.purgeDue = true) ∧
    (x.shared.ticktockDone = true ∨ ∃ t ∈ x.threads, t.ticktockDue = true) := by
  constructor
  · intro hd
    refine flag_kept ?_ (fun i s s' t t' new hs => hs.purge_kept hd) h
    rintro y ⟨size, options, clock, hy⟩
    obtain ⟨_, _, _, _, _, _, _, _, _, _, _, ht⟩ := PoolCore.new_ok hy
    rw [ht, hd]
    exact ⟨.purge .start, by simp, rfl⟩
  · refine flag_kept ?_ (fun i s s' t t' new hs => hs.ticktock_kept) h
    rintro y ⟨size, options, clock, hy⟩
    obtain ⟨_, _, _, _, _, _, _, _, _, _, _, ht⟩ := PoolCore.new_ok hy
    rw [ht]
    exact ⟨.ticktock .start, by simp, rfl⟩

end Run

/-- A scavenger that runs has the context of the pool, and it ends in a closed pool. -/
def Purge.Follows (s : PoolCore) : Purge → Prop
  | .start | .returned | .panicked => True
  | .tick c | .checkClosed c | .refresh c | .finish c _ _ | .broadcast c => s.purgeCtx = some c
  | .done => s.state = .closed

def Ticktock.Follows (s : PoolCore) : Ticktock → Prop
  | .start | .returned => True
  | .tick c | .checkClosed c | .store c => s.ticktockCtx = some c
  | .done => s.state = .closed

def Thread.Follows (s : PoolCore) : Thread → Prop
  | .purge t => t.Follows s
  | .ticktock t => t.Follows s
  | _ => True

namespace Run
variable {o : Options} {x : Config}

theorem purge_alone (h : Run o nonOverlapping x) {t u : Thread} (ht : t ∈ x.threads)
    (hu : u ∈ x.threads) (htd : t.purgeDue = true) (hud : u.purgeDue = true) : t = u :=
  eq_of_countP_le_one (by have := h.flags.1; omega) ht hu htd hud

theorem ticktock_alone (h : Run o nonOverlapping x) {t u : Thread} (ht : t ∈ x.threads)
    (hu : u ∈ x.threads) (htd : t.ticktockDue = true) (hud : u.ticktockDue = true) : t = u :=
  eq_of_countP_le_one (by have := h.flags.2; omega) ht hu htd hud

theorem purge_undone (h : Run o nonOverlapping x) {t : Thread} (ht : t ∈ x.threads)
    (hd : t.purgeDue = true) : x.shared.purgeDone = false := by
  have hpos : 0 < x.threads.countP Thread.purgeDue := List.countP_pos_iff.mpr ⟨t, ht, hd⟩
  have hle := h.flags.1
  cases hf : x.shared.purgeDone with
  | false => rfl
  | true =>
      rw [hf, Bool.toNat_true] at hle
      omega

theorem ticktock_undone (h : Run o nonOverlapping x) {t : Thread} (ht : t ∈ x.threads)
    (hd : t.ticktockDue = true) : x.shared.ticktockDone = false := by
  have hpos : 0 < x.threads.countP Thread.ticktockDue := List.countP_pos_iff.mpr ⟨t, ht, hd⟩
  have hle := h.flags.2
  cases hf : x.shared.ticktockDone with
  | false => rfl
  | true =>
      rw [hf, Bool.toNat_true] at hle
      omega

/-- No call is in progress, or there is one and its place says what stands. -/
theorem standing_cases (h : Run o nonOverlapping x) :
    x.shared.Settled ∨ ∃ (i : ℕ) (t : Thread), x.threads[i]? = some t ∧ t.lifecycle = true ∧
      t.Standing o x.shared := by
  obtain ⟨hidle, hall⟩ := h.standing fun _ _ => id
  by_cases hnone : ∀ t ∈ x.threads, t.lifecycle = false
  · exact .inl (hidle hnone)
  · push Not at hnone
    obtain ⟨t, ht, hl⟩ := hnone
    obtain ⟨i, hi⟩ := List.mem_iff_getElem?.mp ht
    have hl : t.lifecycle = true := by simpa using hl
    exact .inr ⟨i, t, hi, hl, hall i t hi hl⟩

end Run

/-- As long as a release leaves the pool open nothing is cancelled. -/
theorem Release.Standing.live {o : Options} {s : PoolCore} {t : Release} (h : t.Standing o s)
    (ho : s.state = .opened) : s.Live := by
  obtain ⟨m, p, k, pc⟩ := t
  cases pc with
  | entryClosed | returned => exact PoolCore.Settled.live h ho
  | entryPurge | entryTicktock | copyPurgeCtx => exact h
  | copyTicktockCtx => exact h.1
  | exchange => exact h.elim (fun hs => hs.2.live ho) fun hs => hs.1
  | takePurge | cancelPurge | takeTicktock | cancelTicktock => cases ho.symm.trans h.1
  | _ => cases ho.symm.trans h.1.state

namespace Run
variable {o : Options} {x : Config}

/-- The context of a scavenger that is alive in an open pool is not cancelled. -/
theorem purge_open (h : Run o nonOverlapping x) (ho : x.shared.state = .opened)
    (hd : o.disablePurge = false) {t : Purge} (ht : Thread.purge t ∈ x.threads)
    (ha : (Thread.purge t).purgeAlive = true) {c : ℕ} (hc : x.shared.purgeCtx = some c) :
    x.shared.events c = false := by
  have hdue := Thread.purgeDue_of_alive ha
  rcases h.standing_cases with hs | ⟨i, u, hi, hl, hstand⟩
  · exact (hs.live ho).purge.2 c hc
  · have hu := List.mem_of_getElem? hi
    cases u with
    | release u => exact (Release.Standing.live hstand ho).purge.2 c hc
    | reboot u =>
        cases u with
        | checkState | returned => exact (PoolCore.Settled.live hstand ho).purge.2 c hc
        | latchFetch | waitPurge => cases ho.symm.trans (PoolCore.Stopped.state hstand)
        | latchWait | waitTicktock | exchange => cases ho.symm.trans hstand.1.state
        | clearPurge =>
            cases (h.purge_undone ht hdue).symm.trans (hstand.2.2.2.1 hd)
        | purgeCtx => cases h.purge_alone hu ht rfl hdue
        | purgeStop e =>
            cases hstand.2.1.1.symm.trans hc
            exact hstand.2.1.2
        | purgeSpawn | clearTicktock | ticktockNow | ticktockCtx | ticktockStop =>
            exact hstand.2.1.2 c hc
        | ticktockSpawn | replaceLatch => exact PoolCore.Live.purge hstand |>.2 c hc
    | _ => cases hl

theorem ticktock_open (h : Run o nonOverlapping x) (ho : x.shared.state = .opened)
    {t : Ticktock} (ht : Thread.ticktock t ∈ x.threads)
    (ha : (Thread.ticktock t).ticktockAlive = true) {c : ℕ}
    (hc : x.shared.ticktockCtx = some c) : x.shared.events c = false := by
  have hdue := Thread.ticktockDue_of_alive ha
  rcases h.standing_cases with hs | ⟨i, u, hi, hl, hstand⟩
  · exact (hs.live ho).ticktock.2 c hc
  · have hu := List.mem_of_getElem? hi
    cases u with
    | release u => exact (Release.Standing.live hstand ho).ticktock.2 c hc
    | reboot u =>
        cases u with
        | checkState | returned => exact (PoolCore.Settled.live hstand ho).ticktock.2 c hc
        | latchFetch | waitPurge => cases ho.symm.trans (PoolCore.Stopped.state hstand)
        | latchWait | waitTicktock | exchange => cases ho.symm.trans hstand.1.state
        | clearPurge =>
            cases (h.ticktock_undone ht hdue).symm.trans hstand.2.2.2.2
        | purgeCtx | purgeStop | purgeSpawn | clearTicktock =>
            cases (h.ticktock_undone ht hdue).symm.trans hstand.2.2.2
        | ticktockNow | ticktockCtx => cases h.ticktock_alone hu ht rfl hdue
        | ticktockStop e =>
            cases hstand.2.2.1.symm.trans hc
            exact hstand.2.2.2
        | ticktockSpawn | replaceLatch => exact PoolCore.Live.ticktock hstand |>.2 c hc
    | _ => cases hl

end Run

/-- A step that replaces a context or opens the pool meets no thread that follows them. -/
theorem Thread.Step.follows {o : Options} {i : ℕ} {s s' : PoolCore} {t t' : Thread}
    {new : List Thread} (h : Thread.Step o i s t s' t' new) :
    (s'.purgeCtx = s.purgeCtx ∨ t = .reboot .purgeCtx) ∧
    (s'.ticktockCtx = s.ticktockCtx ∨ t = .reboot .ticktockCtx) ∧
    (s.state = .closed → s'.state = .closed ∨ t = .reboot .exchange) := by
  refine ⟨?_, ?_, fun hc => ?_⟩
  · rcases h.numbers with ⟨rfl, _⟩ | ⟨_, rfl⟩ | ⟨_, rfl⟩ | heq
    · exact .inr rfl
    · exact .inl rfl
    · exact .inl rfl
    · exact .inl (congrArg (fun n => n.2.2.1) heq)
  · rcases h.numbers with ⟨_, rfl⟩ | ⟨rfl, _⟩ | ⟨_, rfl⟩ | heq
    · exact .inl rfl
    · exact .inr rfl
    · exact .inl rfl
    · exact .inl (congrArg (fun n => n.2.2.2) heq)
  · cases h.stateStep with
    | close _ hs => exact .inl hs
    | same hs => exact .inl (hs.trans hc)
    | reopen _ ho _ hre =>
        right
        cases h with
        | reboot h =>
            cases h with
            | exchange => rfl
            | _ => cases hc.symm.trans ho
        | _ => cases hre

namespace Run
variable {o : Options} {x : Config}

theorem follows (h : Run o nonOverlapping x) {i : ℕ} {t : Thread}
    (ht : x.threads[i]? = some t) : t.Follows x.shared := by
  refine (Run.invariant_newborn (J := fun _ => True) (φ := fun s _ t => t.Follows s)
    (fun _ _ => trivial) ?_ ?_ ?_ h).2 i t ht
  · rintro s j u ((rfl | rfl | rfl) | ⟨w, rfl⟩) <;> trivial
  · intro y c _ _ _
    cases c <;> trivial
  · intro y j a u s' u' new hy _ hall _ hj hs
    have hmem := List.mem_of_getElem? hj
    obtain ⟨hnum, hthreads⟩ := hy.numbered
    refine ⟨trivial, ?_, fun k v hk hv => ?_⟩
    · have hfollow := hall j u hj
      cases hs with
      | @purge t _ _ hs =>
          have hd := (hthreads j _ hj).1 rfl
          cases hs with
          | noCtx hc => exact (hnum.enabled hd hc).elim
          | ctx hc => exact hc
          | @cancelled c hc =>
              change y.shared.state = .closed
              cases ho : y.shared.state with
              | closed => rfl
              | opened => cases hc.symm.trans (hy.purge_open ho hd hmem rfl hfollow)
          | closed hc => exact hc
          | done | overflow => trivial
          | _ => exact hfollow
      | @ticktock t _ _ hs =>
          cases hs with
          | noCtx hc => exact (hnum.made hc).elim
          | ctx hc => exact hc
          | @cancelled c hc =>
              change y.shared.state = .closed
              cases ho : y.shared.state with
              | closed => rfl
              | opened => cases hc.symm.trans (hy.ticktock_open ho hmem rfl hfollow)
          | closed hc => exact hc
          | done => trivial
          | _ => exact hfollow
      | _ => trivial
    · have hfollow := hall k v hv
      have hvmem := List.mem_of_getElem? hv
      obtain ⟨hpurge, hticktock, hclosed⟩ := hs.follows
      have hflags : u = .reboot .exchange → y.shared.flagged o := by
        rintro rfl
        exact ((Run.standing (fun _ _ => id) hy).2 j _ hj rfl).2
      cases v with
      | purge v =>
          have hd := (hthreads k _ hv).1 rfl
          cases v with
          | start | returned | panicked => trivial
          | done =>
              refine (hclosed hfollow).resolve_right fun hu => ?_
              cases (hy.purge_undone hvmem rfl).symm.trans ((hflags hu).1 hd)
          | _ =>
              refine (hpurge.resolve_right fun hu => ?_).trans hfollow
              subst hu
              cases hy.purge_alone hmem hvmem rfl rfl
      | ticktock v =>
          cases v with
          | start | returned => trivial
          | done =>
              refine (hclosed hfollow).resolve_right fun hu => ?_
              cases (hy.ticktock_undone hvmem rfl).symm.trans (hflags hu).2
          | _ =>
              refine (hticktock.resolve_right fun hu => ?_).trans hfollow
              subst hu
              cases hy.ticktock_alone hmem hvmem rfl rfl
      | _ => trivial

end Run

/-- A reboot that is still to clear the flag of the scavenger. -/
def Thread.clearsPurge : Thread → Bool
  | .reboot .clearPurge => true
  | _ => false

def Thread.clearsTicktock : Thread → Bool
  | .reboot .clearPurge | .reboot .purgeCtx | .reboot (.purgeStop _) | .reboot .purgeSpawn
  | .reboot .clearTicktock => true
  | _ => false

/-- A flag that is set in an open pool was set before, unless a reboot has just opened it. -/
theorem Thread.Step.flags_down {o : Options} {i : ℕ} {s s' : PoolCore} {t t' : Thread}
    {new : List Thread} (h : Thread.Step o i s t s' t' new) (ht : t.Follows s)
    (ho : s'.state = .opened) :
    (s'.purgeDone = true → t'.clearsPurge = true ∨
      s.state = .opened ∧ s.purgeDone = true ∧ t.clearsPurge = false) ∧
    (s'.ticktockDone = true → t'.clearsTicktock = true ∨
      s.state = .opened ∧ s.ticktockDone = true ∧ t.clearsTicktock = false) := by
  cases h with
  | reboot h =>
      cases h with
      | exchange => exact ⟨fun _ => .inl rfl, fun _ => .inl rfl⟩
      | clearPurge => exact ⟨nofun, fun _ => .inl rfl⟩
      | clearNoPurge => exact ⟨nofun, fun _ => .inl rfl⟩
      | purgeCtx | purgeStop | purgeSpawn =>
          exact ⟨fun hf => .inr ⟨ho, hf, rfl⟩, fun _ => .inl rfl⟩
      | clearTicktock => exact ⟨fun hf => .inr ⟨ho, hf, rfl⟩, nofun⟩
      | _ => exact ⟨fun hf => .inr ⟨ho, hf, rfl⟩, fun hf => .inr ⟨ho, hf, rfl⟩⟩
  | purge h =>
      cases h with
      | done => cases ho.symm.trans ht
      | _ => exact ⟨fun hf => .inr ⟨ho, hf, rfl⟩, fun hf => .inr ⟨ho, hf, rfl⟩⟩
  | ticktock h =>
      cases h with
      | done => cases ho.symm.trans ht
      | _ => exact ⟨fun hf => .inr ⟨ho, hf, rfl⟩, fun hf => .inr ⟨ho, hf, rfl⟩⟩
  | release h =>
      cases h with
      | reset =>
          obtain ⟨_, _, hr, _⟩ := Release.reset_frame i s
          rw [hr] at ho ⊢
          exact ⟨fun hf => .inr ⟨ho, hf, rfl⟩, fun hf => .inr ⟨ho, hf, rfl⟩⟩
      | exchange => cases ho
      | _ => exact ⟨fun hf => .inr ⟨ho, hf, rfl⟩, fun hf => .inr ⟨ho, hf, rfl⟩⟩
  | submit h => cases h <;> exact ⟨fun hf => .inr ⟨ho, hf, rfl⟩, fun hf => .inr ⟨ho, hf, rfl⟩⟩
  | work h => cases h <;> exact ⟨fun hf => .inr ⟨ho, hf, rfl⟩, fun hf => .inr ⟨ho, hf, rfl⟩⟩
  | tune h => cases h <;> exact ⟨fun hf => .inr ⟨ho, hf, rfl⟩, fun hf => .inr ⟨ho, hf, rfl⟩⟩
  | clock => exact ⟨fun hf => .inr ⟨ho, hf, rfl⟩, fun hf => .inr ⟨ho, hf, rfl⟩⟩

namespace Run
variable {o : Options} {x : Config}

/-- A flag that is set in an open pool is about to be cleared. -/
theorem flag_down {f : PoolCore → Bool} {q : Thread → Bool}
    (init : ∀ x, Starts o x → f x.shared = false)
    (step : ∀ i s s' t t' new, Thread.Step o i s t s' t' new → t.Follows s →
      s'.state = .opened → f s' = true →
      q t' = true ∨ s.state = .opened ∧ f s = true ∧ q t = false)
    (h : Run o nonOverlapping x) (ho : x.shared.state = .opened) (hf : f x.shared = true) :
    ∃ t ∈ x.threads, q t = true := by
  refine Program.Reach.invariant (J := fun x => x.shared.state = .opened → f x.shared = true →
    ∃ t ∈ x.threads, q t = true) ?_ ?_ ?_ h ho hf
  · intro y hy _ hf
    cases (init y hy).symm.trans hf
  · intro y c _ hy _ ho hf
    obtain ⟨t, ht, hc⟩ := hy ho hf
    exact ⟨t, List.mem_append_left _ ht, hc⟩
  · intro y i a t r hr hy _ ht hn ho hf
    rcases step i _ _ _ _ _ (program_step hn) (Run.follows hr ht) ho hf with hc | ⟨ho, hf, hc⟩
    · exact ⟨_, List.mem_of_getElem? (Config.getElem?_after_self ht), hc⟩
    · obtain ⟨u, hu, hcu⟩ := hy ho hf
      obtain ⟨j, hj⟩ := List.mem_iff_getElem?.mp hu
      have hji : j ≠ i := by
        rintro rfl
        cases Option.some.inj (ht.symm.trans hj)
        cases hc.symm.trans hcu
      exact ⟨u, List.mem_of_getElem? (Config.getElem?_after_ne hji hj), hcu⟩

/-- In an open pool that no call is reopening the flags are down. -/
theorem flags_down (h : Run o nonOverlapping x) (ho : x.shared.state = .opened)
    (hidle : ∀ t ∈ x.threads, t.reopening = false) :
    x.shared.purgeDone = false ∧ x.shared.ticktockDone = false := by
  constructor
  · cases hf : x.shared.purgeDone with
    | false => rfl
    | true =>
        obtain ⟨t, ht, hc⟩ := flag_down (q := Thread.clearsPurge)
          (fun y hy => hy.flags.1.1) (fun _ _ _ _ _ _ hs hw ho => (hs.flags_down hw ho).1) h ho hf
        have hre := hidle t ht
        unfold Thread.clearsPurge at hc
        split at hc
        · cases hre
        · cases hc
  · cases hf : x.shared.ticktockDone with
    | false => rfl
    | true =>
        obtain ⟨t, ht, hc⟩ := flag_down (q := Thread.clearsTicktock)
          (fun y hy => hy.flags.2.1) (fun _ _ _ _ _ _ hs hw ho => (hs.flags_down hw ho).2) h ho hf
        have hre := hidle t ht
        unfold Thread.clearsTicktock at hc
        split at hc
        all_goals first | cases hre | cases hc

/-- Nothing is cancelled in an open pool that no call is reopening. -/
theorem live (h : Run o nonOverlapping x) (ho : x.shared.state = .opened)
    (hidle : ∀ t ∈ x.threads, t.reopening = false) : x.shared.Live := by
  rcases h.standing_cases with hs | ⟨i, u, hi, hl, hstand⟩
  · exact hs.live ho
  · have hre := hidle u (List.mem_of_getElem? hi)
    cases u with
    | release u => exact Release.Standing.live hstand ho
    | reboot u =>
        cases u with
        | checkState | returned => exact PoolCore.Settled.live hstand ho
        | latchFetch | waitPurge => cases ho.symm.trans (PoolCore.Stopped.state hstand)
        | latchWait | waitTicktock | exchange => cases ho.symm.trans hstand.1.state
        | _ => cases hre
    | _ => cases hl

/-- A thread whose duty it is to set a flag is one that runs, when it has not died and no
call is reopening the pool. -/
theorem alive_of_due {t : Thread} (hre : t.reopening = false) :
    (t.purgeDue = true → t ≠ .purge .panicked → t.purgeAlive = true) ∧
      (t.ticktockDue = true → t.ticktockAlive = true) := by
  cases t with
  | reboot t =>
      cases t with
      | purgeCtx | purgeStop | purgeSpawn | ticktockNow | ticktockCtx | ticktockStop
      | ticktockSpawn => cases hre
      | _ => exact ⟨fun h _ => h, id⟩
  | purge t =>
      cases t with
      | panicked => exact ⟨fun _ h => (h rfl).elim, id⟩
      | _ => exact ⟨fun h _ => h, id⟩
  | _ => exact ⟨fun h _ => h, id⟩

end Run

/-- Where the calls that close and reopen a pool do not overlap and no search of its ring
overflows, an open pool that none of them is reopening has exactly one clock thread and,
unless it is disabled, exactly one scavenger. Neither has been told to stop or is about to:
the handle is in place, the context is not cancelled and it is the one that the thread has. -/
theorem open_pool_keeps_its_threads {o : Options} {x : Config} (h : Run o nonOverlapping x)
    (hring : x.shared.workers.inRange) (ho : x.shared.state = .opened)
    (hidle : ∀ t ∈ x.threads, t.reopening = false) :
    x.threads.countP Thread.ticktockAlive = 1 ∧
    x.threads.countP Thread.purgeAlive = (if o.disablePurge then 0 else 1) ∧
    x.shared.Live ∧ x.shared.ticktockCtx ≠ none ∧
    (o.disablePurge = false → x.shared.purgeCtx ≠ none) ∧
    (∀ t, Thread.ticktock t ∈ x.threads → t ≠ .done ∧ t.Follows x.shared) ∧
    ∀ t, Thread.purge t ∈ x.threads → t ≠ .done ∧ t.Follows x.shared := by
  obtain ⟨hnum, hthreads⟩ := h.numbered
  obtain ⟨hpurge, hticktock⟩ := h.flags_down ho hidle
  obtain ⟨hple, hkle⟩ := h.flags
  obtain ⟨hpkept, hkkept⟩ := h.flags_kept
  have hfollows : ∀ t ∈ x.threads, t.Follows x.shared := by
    intro t ht
    obtain ⟨i, hi⟩ := List.mem_iff_getElem?.mp ht
    exact h.follows hi
  refine ⟨?_, ?_, h.live ho hidle, hnum.made, hnum.enabled, fun t ht => ?_, fun t ht => ?_⟩
  · obtain ⟨t, ht, hdue⟩ := hkkept.resolve_left (by simp [hticktock])
    have hpos : 0 < x.threads.countP Thread.ticktockAlive :=
      List.countP_pos_iff.mpr ⟨t, ht, (Run.alive_of_due (hidle t ht)).2 hdue⟩
    have hle : x.threads.countP Thread.ticktockAlive ≤ x.threads.countP Thread.ticktockDue :=
      List.countP_mono_left fun u _ => Thread.ticktockDue_of_alive
    omega
  · cases hd : o.disablePurge with
    | true =>
        refine List.countP_eq_zero.mpr fun t ht ha => ?_
        obtain ⟨i, hi⟩ := List.mem_iff_getElem?.mp ht
        cases t with
        | purge t => cases hd.symm.trans ((hthreads i _ hi).1 rfl)
        | _ => cases ha
    | false =>
        obtain ⟨t, ht, hdue⟩ := (hpkept hd).resolve_left (by simp [hpurge])
        have hlives : t ≠ .purge .panicked := fun hp => h.not_panicked hring (hp ▸ ht)
        have hpos : 0 < x.threads.countP Thread.purgeAlive :=
          List.countP_pos_iff.mpr ⟨t, ht, (Run.alive_of_due (hidle t ht)).1 hdue hlives⟩
        have hle : x.threads.countP Thread.purgeAlive ≤ x.threads.countP Thread.purgeDue :=
          List.countP_mono_left fun u _ => Thread.purgeDue_of_alive
        simp only [Bool.false_eq_true, if_false]
        omega
  · refine ⟨?_, hfollows _ ht⟩
    rintro rfl
    cases ho.symm.trans (hfollows _ ht)
  · refine ⟨?_, hfollows _ ht⟩
    rintro rfl
    cases ho.symm.trans (hfollows _ ht)

/-- A release and a reboot of a small pool. -/
theorem open_pool_keeps_its_threads_small :
    ∃ x, Run scavengedOptions nonOverlapping x ∧ Thread.reboot .returned ∈ x.threads ∧
      x.threads.countP Thread.ticktockAlive = 1 ∧ x.threads.countP Thread.purgeAlive = 1 := by
  obtain ⟨x, hx, hφ⟩ := Program.Reach.exists_of_run
    (P := program scavengedOptions) (I := Starts scavengedOptions) (G := nonOverlapping)
    (x := scavengedPool) (m := quietMoves ++ .call .reboot :: steps 4 16)
    (φ := fun x => decide (Thread.reboot .returned ∈ x.threads ∧ x.shared.workers.inRange ∧
      x.shared.state = .opened ∧ ∀ t ∈ x.threads, t.reopening = false))
    scavengedPool_starts (by decide)
  obtain ⟨hr, hring, ho, hidle⟩ := of_decide_eq_true hφ
  obtain ⟨hticktock, hpurge, _⟩ := open_pool_keeps_its_threads hx hring ho hidle
  exact ⟨x, hx, hr, hticktock, hpurge⟩

end AntsPool
