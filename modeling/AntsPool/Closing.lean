import AntsPool.Wakeup

/-!
# Callers left waiting when a pool closes

The broadcast of `release()` reaches the callers that are registered when it is made.
A caller registered later is woken by a worker that signals in its epilogue, and a
caller woken into a closed pool wakes no other one. So the workers that are left have
to suffice for the callers that register late.
-/
namespace AntsPool
open Interleaving

namespace Thread

/-- A `release()` between its exchange and its broadcast. -/
def beforeBroadcast : Thread → Bool
  | .release t => t.pc.closing || t.pc = .broadcast
  | _ => false

/-- A worker about to signal at the end of its epilogue. -/
def lastSignal : Thread → Bool
  | .work ⟨_, _, .signal⟩ => true
  | _ => false

theorem Step.beforeBroadcast {o : Options} {i : ℕ} {s s' : PoolCore} {t t' : Thread}
    {new : List Thread} (h : Thread.Step o i s t s' t' new) (ht : t.beforeBroadcast = true) :
    t'.beforeBroadcast = true ∨ t.broadcasting = true ∧ t'.parkedAt = none ∧
      s' = { s with cond := s.cond.broadcast } := by
  cases h with
  | release h =>
      cases h with
      | broadcast => exact .inr ⟨rfl, rfl, rfl⟩
      | noPurge | takePurge | cancelPurge | noTicktock | takeTicktock | cancelTicktock | reset =>
          exact .inl rfl
      | _ => cases ht
  | _ => cases ht

theorem beforeBroadcast_of_closing {t : Thread} (h : t.closing = true) :
    t.beforeBroadcast = true := by
  cases t with
  | release t => exact Bool.or_eq_true_iff.mpr (.inl h)
  | _ => cases h

/-- Only a `release()` that has yet to broadcast closes the pool. -/
theorem Step.closed_cases {o : Options} {i : ℕ} {s s' : PoolCore} {t t' : Thread}
    {new : List Thread} (h : Thread.Step o i s t s' t' new) (hc : s'.state = .closed) :
    s.state = .closed ∨ t'.beforeBroadcast = true := by
  cases h.queueStep with
  | exchange _ _ ht => exact .inr (beforeBroadcast_of_closing ht)
  | reopen hs =>
      subst hs
      cases hc
  | reset _ hs =>
      subst hs
      exact .inl ((Release.reset_state i s).symm.trans hc)
  | finish hs =>
      subst hs
      exact .inl hc
  | insert _ hs | refresh _ hs | quiet _ hs => exact .inl (hs.1.symm.trans hc)

/-- Past the exchange of `release()`, whether it closed the pool or found it closed. -/
def hasClosed : Thread → Bool
  | .release ⟨_, _, _, .returned (some _)⟩ => false
  | .release t => !t.pc.beforeExchange
  | _ => false

def isReboot : Thread → Bool
  | .reboot _ => true
  | _ => false

theorem isReboot_of_reopening {t : Thread} (h : t.reopening = true) : t.isReboot = true := by
  cases t with
  | reboot => rfl
  | _ => cases h

theorem Step.isReboot {o : Options} {i : ℕ} {s s' : PoolCore} {t t' : Thread}
    {new : List Thread} (h : Thread.Step o i s t s' t' new) : t'.isReboot = t.isReboot := by
  cases h <;> rfl

theorem Step.hasClosed {o : Options} {i : ℕ} {s s' : PoolCore} {t t' : Thread}
    {new : List Thread} (h : Thread.Step o i s t s' t' new) (ht' : t'.hasClosed = true) :
    t.hasClosed = true ∨ s'.state = .closed := by
  cases h with
  | release h =>
      cases h with
      | exchangeFails hc => exact .inr hc
      | exchange => exact .inr rfl
      | entryRefused | entryOpened | entryNoPurge | entryPurge | entryNoTicktock | entryTicktock
      | copyPurgeCtx | copyTicktockCtx => cases ht'
      | _ => exact .inl rfl
  | _ => cases ht'

end Thread

/-- The pool is closed and every `release()` that closed it has made its broadcast. -/
def closedOut (x : Config) : Prop :=
  x.shared.state = .closed ∧ ∀ u ∈ x.threads, u.beforeBroadcast = false

instance (x : Config) : Decidable (closedOut x) := inferInstanceAs (Decidable (_ ∧ _))

/-- Once the broadcast is made, a caller registers only while a worker is left, and the
last worker to signal leaves no caller behind. -/
def leavesNobody (x : Config) (t : Thread) : Prop :=
  closedOut x →
    (t.registering = true → (∃ u ∈ x.threads, u.unfinished = true) ∨
      0 < x.shared.cond.tokens ∧ noneCurrent x.shared.cond x.threads) ∧
    (t.lastSignal = true → 1 < x.threads.countP Thread.unfinished ∨
      x.shared.cond.parked ≤ x.shared.cond.tokens + 1 ∨ noneCurrent x.shared.cond x.threads)

instance (x : Config) (t : Thread) : Decidable (leavesNobody x t) :=
  inferInstanceAs (Decidable (closedOut x → _ ∧ _))

/-- Any calls but reboots, with callers and workers that leave nobody behind. -/
def rescued (x : Config) : Move → Prop
  | .call .reboot => False
  | .call _ => True
  | .step i a => noWrap x (.step i a) ∧ ∀ t ∈ x.threads[i]?, leavesNobody x t

instance (x : Config) : (m : Move) → Decidable (rescued x m)
  | .call .reboot => inferInstanceAs (Decidable False)
  | .call (.submit _) | .call (.tune _) | .call .release | .call (.releaseContext _) =>
      inferInstanceAs (Decidable True)
  | .step i a =>
      inferInstanceAs (Decidable (noWrap x (.step i a) ∧ ∀ t ∈ x.threads[i]?, leavesNobody x t))

/-- Every blocked caller is going to leave, or some worker has yet to signal. -/
def attended (x : Config) : Prop :=
  noneCurrent x.shared.cond x.threads ∨ (∃ u ∈ x.threads, u.unfinished = true) ∨
    x.shared.cond.parked ≤ x.shared.cond.tokens

/-- A pool that is closed out after a step was so before it, or the step broadcasts. -/
theorem closedOut.before {o : Options} {x : Config} {i : ℕ} {t t' : Thread} {s' : PoolCore}
    {new : List Thread} (hc : closedOut (x.after i (s', t', new))) (ht : x.threads[i]? = some t)
    (hs : Thread.Step o i x.shared t s' t' new) :
    closedOut x ∨ t.broadcasting = true ∧ t'.parkedAt = none ∧
      s' = { x.shared with cond := x.shared.cond.broadcast } := by
  obtain ⟨hclosed, hbefore⟩ := hc
  have hself := hbefore t' (List.mem_of_getElem? (Config.getElem?_after_self ht))
  cases hb : t.beforeBroadcast with
  | true =>
      rcases hs.beforeBroadcast hb with hb | hb
      · cases hself.symm.trans hb
      · exact .inr hb
  | false =>
      refine .inl ⟨?_, fun u hu => ?_⟩
      · rcases hs.closed_cases hclosed with hold | hnew
        · exact hold
        · cases hself.symm.trans hnew
      · by_cases hne : t = u
        · exact hne ▸ hb
        · exact hbefore u (Config.mem_after_of_ne ht hu hne _)

/-- A step that blocks nobody and ends no worker's thread keeps the callers attended when it
does not take more tokens than callers. -/
theorem attended.after {o : Options} {x : Config} {i : ℕ} {t t' : Thread} {s' : PoolCore}
    {new : List Thread} (h : attended x) (ht : x.threads[i]? = some t)
    (hs : Thread.Step o i x.shared t s' t' new) (hp : t'.parkedAt = none)
    (hg : s'.cond.generation = x.shared.cond.generation)
    (hf : t.unfinished = true → t'.unfinished = true)
    (hparked : x.shared.cond.parked ≤ x.shared.cond.tokens → s'.cond.parked ≤ s'.cond.tokens) :
    attended (x.after i (s', t', new)) := by
  rcases h with h | ⟨u, hu, hun⟩ | h
  · exact .inl (h.after hs hp hg)
  · right; left
    by_cases hne : t = u
    · exact ⟨t', List.mem_of_getElem? (Config.getElem?_after_self ht), hf (hne ▸ hun)⟩
    · exact ⟨u, Config.mem_after_of_ne ht hu hne _, hun⟩
  · exact .inr (.inr (hparked h))

namespace Run
variable {o : Options} {x : Config}

/-- Without a reboot a `release()` past its exchange leaves the pool closed. -/
theorem closed_of_hasClosed {G : Guard} (hG : ∀ x, ¬ G x (.call .reboot)) (h : Run o G x) (i : ℕ)
    (t : Thread) (ht : x.threads[i]? = some t) :
    t.isReboot = false ∧ (t.hasClosed = true → x.shared.state = .closed) := by
  refine (Run.invariant_newborn (J := fun _ => True)
    (φ := fun s _ t => t.isReboot = false ∧ (t.hasClosed = true → s.state = .closed))
    (fun _ _ => trivial) ?_ ?_ ?_ h).2 i t ht
  · intro s i t hb
    rcases hb with (rfl | rfl | rfl) | ⟨w, rfl⟩ <;> exact ⟨rfl, nofun⟩
  · intro y c _ _ hg
    cases c with
    | submit | tune | release | releaseContext => exact ⟨rfl, nofun⟩
    | reboot => exact (hG y hg).elim
  · intro y i a t s' t' new _ _ hall _ ht hs
    have hreboot : t'.isReboot = false := hs.isReboot.trans (hall i t ht).1
    have hstate : y.shared.state = .closed → s'.state = .closed := by
      intro hc
      cases hs.stateStep with
      | close _ hclosed => exact hclosed
      | reopen _ _ _ hre => cases hreboot.symm.trans (Thread.isReboot_of_reopening hre)
      | same hsame => exact hsame.trans hc
    refine ⟨trivial, ⟨hreboot, fun hc => ?_⟩, fun j u _ hu => ?_⟩
    · rcases hs.hasClosed hc with hc | hc
      · exact hstate ((hall i t ht).2 hc)
      · exact hc
    · exact ⟨(hall j u hu).1, fun hc => hstate ((hall j u hu).2 hc)⟩

theorem closed_of_release (h : Run o rescued x) (i : ℕ) (t : Thread) (ht : x.threads[i]? = some t) :
    t.isReboot = false ∧ (t.hasClosed = true → x.shared.state = .closed) :=
  h.closed_of_hasClosed (fun _ => id) i t ht

/-- Every step of a rescued run keeps the callers of a closed-out pool attended. -/
theorem attended_step (h : Run o rescued x) (hatt : closedOut x → attended x) {i : ℕ} {a : Env}
    {t t' : Thread} {s' : PoolCore} {new : List Thread} (hg : rescued x (.step i a))
    (ht : x.threads[i]? = some t) (hs : Thread.Step o i x.shared t s' t' new)
    (hc : closedOut (x.after i (s', t', new))) : attended (x.after i (s', t', new)) := by
  rcases hc.before ht hs with hold | ⟨hb, hp, rfl⟩
  · have hatt := hatt hold
    obtain ⟨hregister, hlast⟩ := hg.2 t ht hold
    cases hs.condStep with
    | broadcast hs' hb hp hf =>
        subst hs'
        exact .inl (h.noneCurrent_after hs (hg.1 (by rw [ht]; exact hb)) hp)
    | quiet hcond hp _ _ hf =>
        exact hatt.after ht hs hp (by rw [hcond]) hf (by rw [hcond]; exact id)
    | refused hsub _ hs' ht' =>
        subst hsub hs' ht'
        exact hatt.after ht hs rfl rfl nofun id
    | store ht0 hcond _ ht' =>
        have hp : t'.parkedAt = none := by
          rcases ht' with ⟨_, rfl⟩ | ⟨_, rfl⟩ | ⟨_, rfl⟩ <;> rfl
        subst ht0
        exact hatt.after ht hs hp (by rw [hcond]) nofun (by rw [hcond]; exact id)
    | insert ht0 hcond _ ht' =>
        subst ht0 ht'
        refine hatt.after ht hs rfl (by rw [hcond, Cond.signal_generation]) (fun _ => rfl) ?_
        rw [hcond, Cond.signal_parked]
        rcases x.shared.cond.signal_tokens with h | h <;> omega
    | signal hs' ht0 =>
        have hcond : s'.cond = x.shared.cond.signal := by rw [hs']
        have hgen : s'.cond.generation = x.shared.cond.generation := by
          rw [hcond, Cond.signal_generation]
        rcases ht0 with ⟨w, b, rfl, rfl⟩ | ⟨rfl, rfl⟩
        · rcases hlast rfl with htwo | hfew | hnone
          · right; left
            cases hs
            have hcount := Config.countP_after Thread.unfinished ht
              (r := (s', .work ⟨w, b, .returned⟩, [])) fun _ hv => nomatch hv
            change _ + 1 = _ + 0 at hcount
            exact List.countP_pos_iff.mp (by omega)
          · right; right
            change s'.cond.parked ≤ s'.cond.tokens
            rw [hcond, Cond.signal_parked]
            rcases x.shared.cond.signal_tokens with h | h <;> omega
          · exact .inl (hnone.after hs rfl hgen)
        · refine hatt.after ht hs rfl hgen nofun fun h => ?_
          rw [hcond, Cond.signal_parked]
          rcases x.shared.cond.signal_tokens with h | h <;> omega
    | leave ht0 ht' hs' =>
        subst ht0 ht'
        obtain ⟨c, hpoll, rfl⟩ := hs'
        obtain ⟨hgen, hpark, htok⟩ := Cond.poll_some hpoll
        refine hatt.after ht hs rfl hgen nofun fun h => ?_
        change c.parked ≤ c.tokens
        omega
    | park ht0 hs' =>
        subst ht0
        rcases hregister rfl with ⟨u, hu, hun⟩ | ⟨hpos, hnone⟩
        · refine .inr (.inl ⟨u, Config.mem_after_of_ne ht hu ?_ _, hun⟩)
          rintro rfl
          cases hun
        · rcases hs' with ⟨c, hpoll, rfl, rfl⟩ | ⟨hzero, _⟩
          · exact .inl (hnone.after hs rfl (Cond.poll_some hpoll).1)
          · omega
  · exact .inl (h.noneCurrent_after hs (hg.1 (by rw [ht]; exact hb)) hp)

theorem attended (h : Run o rescued x) : closedOut x → attended x := by
  refine Run.invariant (J := fun x => closedOut x → AntsPool.attended x) ?_ ?_ ?_ h
  · intro y hy hc
    cases hc.1.symm.trans hy.state
  · intro y c _ hatt _ hc
    rcases hatt ⟨hc.1, fun u hu => hc.2 u (List.mem_append_left _ hu)⟩ with h | ⟨u, hu, hun⟩ | h
    · refine .inl fun u hu => ?_
      rcases List.mem_append.mp hu with hu | hu
      · exact h u hu
      · rw [List.mem_singleton.mp hu]
        cases c <;> exact nofun
    · exact .inr (.inl ⟨u, List.mem_append_left _ hu, hun⟩)
    · exact .inr (.inr h)
  · intro y i a t s' t' new hr hatt hg ht hs hc
    exact hr.attended_step hatt hg ht hs hc

end Run

/-- A worker that has not finished its epilogue, a release that has not returned and a
caller back from the wait. -/
def Thread.winding : Thread → Bool
  | .work ⟨_, _, .returned⟩ | .release ⟨_, _, _, .returned _⟩ => false
  | .work _ | .release _ => true
  | .submit ⟨_, true, .parked _⟩ | .submit ⟨_, true, .ok _⟩ | .submit ⟨_, true, .err _⟩ => false
  | .submit t => t.waited
  | _ => false

/-- Every worker, release and woken caller has come to its end, and no token and no
outdated caller is left. -/
structure WoundUp (x : Config) : Prop where
  threads : ∀ u ∈ x.threads, u.winding = false
  tokens : x.shared.cond.tokens = 0
  current : ∀ u ∈ x.threads, u.parks = true → u.parkedAt = some x.shared.cond.generation

instance (x : Config) : Decidable (WoundUp x) :=
  decidable_of_iff ((∀ u ∈ x.threads, u.winding = false) ∧ x.shared.cond.tokens = 0 ∧
    ∀ u ∈ x.threads, u.parks = true → u.parkedAt = some x.shared.cond.generation)
    ⟨fun h => ⟨h.1, h.2.1, h.2.2⟩, fun h => ⟨h.threads, h.tokens, h.current⟩⟩

theorem Thread.ended {t : Thread} (h : t.winding = false) :
    t.unfinished = false ∧ t.beforeBroadcast = false := by
  cases t with
  | work t =>
      obtain ⟨w, b, pc⟩ := t
      cases pc with
      | returned => exact ⟨rfl, rfl⟩
      | _ => cases h
  | release t =>
      obtain ⟨m, p, k, pc⟩ := t
      cases pc with
      | returned => exact ⟨rfl, rfl⟩
      | _ => cases h
  | submit | purge | ticktock | reboot | tune | clock => exact ⟨rfl, rfl⟩

/-- In every rescued run no caller is blocked once a release has returned and everyone else
has come to an end, and all that have waited got a worker or `PoolClosed`. -/
theorem closing_releases_callers {o : Options} {x : Config} (h : Run o rescued x)
    (hw : WoundUp x) {m : ReleaseMode} {p k : Option ℕ}
    (hr : Thread.release ⟨m, p, k, .returned none⟩ ∈ x.threads) :
    (∀ u ∈ x.threads, u.parks = false) ∧ ∀ t, Thread.submit t ∈ x.threads → t.waited = true →
      (∃ w, t.pc = .ok w) ∨ t.pc = .err .poolClosed := by
  obtain ⟨i, hi⟩ := List.mem_iff_getElem?.mp hr
  have hclosed : closedOut x := by
    refine ⟨(h.closed_of_release i _ hi).2 rfl, fun u hu => ?_⟩
    exact (Thread.ended (hw.threads u hu)).2
  have hnone : ∀ u ∈ x.threads, u.parks = false := by
    intro u hu
    cases hp : u.parks with
    | false => rfl
    | true =>
        rcases h.attended hclosed with hnone | ⟨v, hv, hun⟩ | hfew
        · exact absurd (hw.current u hu hp) (hnone u hu)
        · cases (Thread.ended (hw.threads v hv)).1.symm.trans hun
        · have hpos := h.parked_pos hu hp
          have := hw.tokens
          omega
  refine ⟨hnone, fun t ht hwait => ?_⟩
  obtain ⟨q, b, pc⟩ := t
  cases hwait
  have hwind := hw.threads _ ht
  cases pc with
  | parked g => cases hnone _ ht
  | ok w => exact .inl ⟨w, rfl⟩
  | err e => exact .inr (congrArg _ (h.waited_error ht rfl rfl))
  | _ => cases hwind

/-- The last worker wakes the one caller that registered after the broadcast. -/
theorem closing_releases_callers_small :
    ∃ x, Run smallOptions rescued x ∧
      Thread.submit ⟨⟨4, false⟩, true, .err .poolClosed⟩ ∈ x.threads ∧
      ∀ u ∈ x.threads, u.parks = false := by
  obtain ⟨x, hx, hφ⟩ := Program.Reach.exists_of_run
    (P := program smallOptions) (I := Starts smallOptions) (G := rescued) (x := smallPool)
    (m := .call (.submit false) :: steps 2 7 ++ steps 3 1 ++ .call (.submit false) :: steps 4 1 ++
      .call .release :: steps 5 7 ++ steps 4 4 ++ .step 3 .fault :: steps 3 7 ++ steps 4 3)
    (φ := fun x => decide (WoundUp x ∧
      Thread.release ⟨.plain, none, none, .returned none⟩ ∈ x.threads ∧
      Thread.submit ⟨⟨4, false⟩, true, .err .poolClosed⟩ ∈ x.threads)) smallPool_starts (by decide)
  obtain ⟨hw, hr, ht⟩ := of_decide_eq_true hφ
  exact ⟨x, hx, ht, (closing_releases_callers hx hw hr).1⟩

/-- Submits and one `release()`. -/
def oneRelease (x : Config) : Move → Prop
  | .call (.submit _) | .step _ _ => True
  | .call .release => ∀ u ∈ x.threads, u.isRelease = false
  | .call _ => False

instance (x : Config) : (m : Move) → Decidable (oneRelease x m)
  | .call (.submit _) | .step _ _ => inferInstanceAs (Decidable True)
  | .call .release => inferInstanceAs (Decidable (∀ u ∈ x.threads, u.isRelease = false))
  | .call (.releaseContext _) | .call (.tune _) | .call .reboot =>
      inferInstanceAs (Decidable False)

/-- Two callers register after the broadcast. The only worker signals one of them, which
returns `PoolClosed` without waking the other. -/
theorem caller_blocked_on_closed_pool :
    ∃ x, Run smallOptions oneRelease x ∧ WoundUp x ∧
      Thread.release ⟨.plain, none, none, .returned none⟩ ∈ x.threads ∧
      ∃ u ∈ x.threads, u.parks = true := by
  obtain ⟨x, hx, hφ⟩ := Program.Reach.exists_of_run
    (P := program smallOptions) (I := Starts smallOptions) (G := oneRelease) (x := smallPool)
    (m := .call (.submit false) :: steps 2 7 ++ steps 3 1 ++ .call (.submit false) :: steps 4 1 ++
      .call (.submit false) :: steps 5 1 ++ .call .release :: steps 6 7 ++ steps 4 4 ++ steps 5 4 ++
      .step 3 .fault :: steps 3 7 ++ steps 4 3)
    (φ := fun x => decide (WoundUp x ∧
      Thread.release ⟨.plain, none, none, .returned none⟩ ∈ x.threads ∧
      ∃ u ∈ x.threads, u.parks = true)) smallPool_starts (by decide)
  exact ⟨x, hx, of_decide_eq_true hφ⟩

end AntsPool
