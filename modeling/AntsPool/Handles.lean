import AntsPool.Background
import AntsPool.Lifecycle

/-!
# The contexts of the background threads

A background thread stops when its context is cancelled, and the pool keeps the handle
for that until a release takes it. When the calls that close and reopen a pool do not
overlap, a context and its handle go through the same states over and over: both stand
while the pool is open, the release takes the handle and cancels the context, and a
reboot makes a new pair. What stands while such a call is in progress is determined by
where it is.
-/
namespace AntsPool
open Interleaving

/-- The handle for the context is in place and the context is not cancelled. -/
def Stands (events : ℕ → Bool) (ctx stop : Option ℕ) : Prop :=
  stop = ctx ∧ ∀ c, ctx = some c → events c = false

/-- The handle has been taken and the context is cancelled. -/
def Over (events : ℕ → Bool) (ctx stop : Option ℕ) : Prop :=
  stop = none ∧ ∀ c, ctx = some c → events c = true

namespace PoolCore

/-- Both contexts stand in an open pool. -/
structure Live (s : PoolCore) : Prop where
  state : s.state = .opened
  purge : Stands s.events s.purgeCtx s.stopPurge
  ticktock : Stands s.events s.ticktockCtx s.stopTicktock

/-- Both are over in a closed one. -/
structure Stopped (s : PoolCore) : Prop where
  state : s.state = .closed
  purge : Over s.events s.purgeCtx s.stopPurge
  ticktock : Over s.events s.ticktockCtx s.stopTicktock

/-- How a pool is between two calls. -/
def Settled (s : PoolCore) : Prop := s.Live ∨ s.Stopped

/-- The flags that a reboot waits for are set. -/
def flagged (o : Options) (s : PoolCore) : Prop :=
  (o.disablePurge = false → s.purgeDone = true) ∧ s.ticktockDone = true

/-- A number that no current context has. -/
def latchNumber (s : PoolCore) (e : ℕ) : Prop :=
  e < s.eventCount ∧ s.purgeCtx ≠ some e ∧ s.ticktockCtx ≠ some e

/-- The latch and the two contexts are different events. -/
structure Numbered (o : Options) (s : PoolCore) : Prop where
  latch : s.latchNumber s.allDone
  purge : ∀ c, s.purgeCtx = some c → c < s.eventCount ∧ s.ticktockCtx ≠ some c
  ticktock : ∀ c, s.ticktockCtx = some c → c < s.eventCount
  disabled : o.disablePurge = true → s.purgeCtx = none
  enabled : o.disablePurge = false → s.purgeCtx ≠ none
  made : s.ticktockCtx ≠ none

end PoolCore

/-- The latch that a thread is about to close. -/
def Thread.closesNext : Thread → Option ℕ
  | .work ⟨_, _, .latchClose e⟩ | .release ⟨_, _, _, .latchClose e⟩ => some e
  | _ => none

/-- A scavenger, or a reboot that is about to start one. -/
def Thread.scavenges : Thread → Bool
  | .reboot .purgeCtx | .reboot (.purgeStop _) | .reboot .purgeSpawn | .purge _ => true
  | _ => false

/-- The events of a new pool, by number. -/
theorem Starts.numbers {o : Options} {x : Config} (h : Starts o x) :
    x.shared.allDone = 0 ∧
      ((o.disablePurge = true ∧ x.shared.purgeCtx = none ∧ x.shared.ticktockCtx = some 1 ∧
          x.shared.eventCount = 2) ∨
        (o.disablePurge = false ∧ x.shared.purgeCtx = some 1 ∧ x.shared.ticktockCtx = some 2 ∧
          x.shared.eventCount = 3)) := by
  obtain ⟨size, options, clock, h⟩ := h
  unfold PoolCore.new at h
  extract_lets capacity expiry opts at h
  split at h
  · cases h
  · split at h
    · cases h
    · obtain ⟨queue, _, hr⟩ := Option.map_eq_some_iff.mp h
      obtain ⟨rfl, rfl⟩ := Prod.mk.inj (Except.ok.inj hr)
      cases hd : opts.disablePurge with
      | true => exact ⟨rfl, .inl ⟨rfl, rfl, rfl, rfl⟩⟩
      | false => exact ⟨rfl, .inr ⟨rfl, rfl, rfl, rfl⟩⟩

theorem Starts.numbered {o : Options} {x : Config} (h : Starts o x) : x.shared.Numbered o := by
  obtain ⟨hl, ⟨hd, hp, hk, hn⟩ | ⟨hd, hp, hk, hn⟩⟩ := h.numbers
  · constructor <;> simp [PoolCore.latchNumber, hl, hd, hp, hk, hn]
  · constructor <;> simp [PoolCore.latchNumber, hl, hd, hp, hk, hn]

theorem Starts.live {o : Options} {x : Config} (h : Starts o x) : x.shared.Live := by
  have hfresh := h.fresh
  obtain ⟨size, options, clock, h⟩ := h
  obtain ⟨_, capacity, _, _, queue, _, purge, events, latest, _, hs, _⟩ := PoolCore.new_ok h
  refine ⟨hfresh.state, ⟨?_, fun c _ => hfresh.events c⟩, ?_, fun c _ => hfresh.events c⟩
  · rw [hs]
  · rw [hs]

theorem Starts.scavenges {o : Options} {x : Config} (h : Starts o x) :
    ∀ t ∈ x.threads, t.scavenges = true → o.disablePurge = false := by
  obtain ⟨size, options, clock, h⟩ := h
  obtain ⟨_, capacity, _, _, queue, _, purge, events, latest, _, _, ht⟩ := PoolCore.new_ok h
  rw [ht]
  cases o.disablePurge with
  | true => simp [Thread.scavenges]
  | false => simp

/-! ## The numbers of the events -/

namespace PoolCore
variable {o : Options} {s : PoolCore}

theorem latchNumber.newPurge {e : ℕ} (h : s.latchNumber e) : s.goPurgeCtx.2.latchNumber e :=
  ⟨Nat.lt_succ_of_lt h.1, fun he => h.1.ne (Option.some.inj he).symm, h.2.2⟩

theorem latchNumber.newTicktock {e : ℕ} (h : s.latchNumber e) : s.goTicktockCtx.2.latchNumber e :=
  ⟨Nat.lt_succ_of_lt h.1, h.2.1, fun he => h.1.ne (Option.some.inj he).symm⟩

theorem latchNumber.newEvent {e : ℕ} (h : s.latchNumber e) : s.newEvent.2.latchNumber e :=
  ⟨Nat.lt_succ_of_lt h.1, h.2⟩

theorem Numbered.newPurge (h : s.Numbered o) (hd : o.disablePurge = false) :
    s.goPurgeCtx.2.Numbered o where
  latch := h.latch.newPurge
  purge := by
    rintro c hc
    cases hc
    exact ⟨Nat.lt_succ_self _, fun hk => (h.ticktock _ hk).ne rfl⟩
  ticktock c hc := Nat.lt_succ_of_lt (h.ticktock c hc)
  disabled he := by cases hd.symm.trans he
  enabled _ := nofun
  made := h.made

theorem Numbered.newTicktock (h : s.Numbered o) : s.goTicktockCtx.2.Numbered o where
  latch := h.latch.newTicktock
  purge c hc :=
    ⟨Nat.lt_succ_of_lt (h.purge c hc).1, fun hk => (h.purge c hc).1.ne (Option.some.inj hk).symm⟩
  ticktock := by
    rintro c hc
    cases hc
    exact Nat.lt_succ_self _
  disabled := h.disabled
  enabled := h.enabled
  made := nofun

theorem Numbered.newLatch (h : s.Numbered o) :
    { (s.newEvent.2) with allDone := s.eventCount }.Numbered o where
  latch := ⟨Nat.lt_succ_self _, fun hp => (h.purge _ hp).1.ne rfl, fun hk => (h.ticktock _ hk).ne rfl⟩
  purge c hc := ⟨Nat.lt_succ_of_lt (h.purge c hc).1, (h.purge c hc).2⟩
  ticktock c hc := Nat.lt_succ_of_lt (h.ticktock c hc)
  disabled := h.disabled
  enabled := h.enabled
  made := h.made

end PoolCore

/-- The current contexts and latch, and the number that the next event gets. -/
def PoolCore.numbers (s : PoolCore) : ℕ × ℕ × Option ℕ × Option ℕ :=
  (s.eventCount, s.allDone, s.purgeCtx, s.ticktockCtx)

/-- Only a reboot makes events. -/
theorem Thread.Step.numbers {o : Options} {i : ℕ} {s s' : PoolCore} {t t' : Thread}
    {new : List Thread} (h : Thread.Step o i s t s' t' new) :
    (t = .reboot .purgeCtx ∧ s' = s.goPurgeCtx.2) ∨
    (t = .reboot .ticktockCtx ∧ s' = s.goTicktockCtx.2) ∨
    (t = .reboot .replaceLatch ∧ s' = { (s.newEvent.2) with allDone := s.eventCount }) ∨
    s'.numbers = s.numbers := by
  cases h with
  | reboot h =>
      cases h with
      | purgeCtx => exact .inl ⟨rfl, rfl⟩
      | ticktockCtx => exact .inr (.inl ⟨rfl, rfl⟩)
      | replaceLatch => exact .inr (.inr (.inl ⟨rfl, rfl⟩))
      | _ => exact .inr (.inr (.inr rfl))
  | release h =>
      cases h with
      | reset =>
          obtain ⟨_, _, hr, _⟩ := Release.reset_frame i s
          rw [hr]
          exact .inr (.inr (.inr rfl))
      | _ => exact .inr (.inr (.inr rfl))
  | submit h => cases h <;> exact .inr (.inr (.inr rfl))
  | work h => cases h <;> exact .inr (.inr (.inr rfl))
  | purge h => cases h <;> exact .inr (.inr (.inr rfl))
  | ticktock h => cases h <;> exact .inr (.inr (.inr rfl))
  | tune h => cases h <;> exact .inr (.inr (.inr rfl))
  | clock => exact .inr (.inr (.inr rfl))

theorem PoolCore.latchNumber.congr {s s' : PoolCore} {e : ℕ} (h : s.latchNumber e)
    (heq : s'.numbers = s.numbers) : s'.latchNumber e := by
  obtain ⟨h1, _, h3, h4⟩ := by simpa only [numbers, Prod.mk.injEq] using heq
  simpa only [latchNumber, h1, h3, h4] using h

theorem PoolCore.Numbered.congr {o : Options} {s s' : PoolCore} (h : s.Numbered o)
    (heq : s'.numbers = s.numbers) : s'.Numbered o := by
  obtain ⟨h1, h2, h3, h4⟩ := by simpa only [numbers, Prod.mk.injEq] using heq
  obtain ⟨hl, hp, hk, hd, he, hm⟩ := h
  constructor <;> simpa only [latchNumber, h1, h2, h3, h4]

theorem Thread.Step.numbered {o : Options} {i : ℕ} {s s' : PoolCore} {t t' : Thread}
    {new : List Thread} (h : Thread.Step o i s t s' t' new) (hs : s.Numbered o)
    (ht : t.scavenges = true → o.disablePurge = false) :
    s'.Numbered o ∧ ∀ e, s.latchNumber e → s'.latchNumber e := by
  rcases h.numbers with ⟨rfl, rfl⟩ | ⟨rfl, rfl⟩ | ⟨rfl, rfl⟩ | heq
  · exact ⟨hs.newPurge (ht rfl), fun e he => he.newPurge⟩
  · exact ⟨hs.newTicktock, fun e he => he.newTicktock⟩
  · exact ⟨hs.newLatch, fun e he => he.newEvent⟩
  · exact ⟨hs.congr heq, fun e he => he.congr heq⟩

/-- A thread that is about to close a latch was, or has just fetched the current one. -/
theorem Thread.Step.closesNext {o : Options} {i : ℕ} {s s' : PoolCore} {t t' : Thread}
    {new : List Thread} (h : Thread.Step o i s t s' t' new) {e : ℕ}
    (he : t'.closesNext = some e) : s' = s ∧ e = s.allDone := by
  cases h with
  | work h =>
      cases h with
      | latchFetch =>
          cases he
          exact ⟨rfl, rfl⟩
      | _ => cases he
  | release h =>
      cases h with
      | latchFetch =>
          cases he
          exact ⟨rfl, rfl⟩
      | exchangeFails _ ha | busy _ ha | latchClose ha => cases ha <;> cases he
      | _ => cases he
  | _ => cases he

/-- Scavengers come from scavenged pools. -/
theorem Thread.Step.scavenges {o : Options} {i : ℕ} {s s' : PoolCore} {t t' : Thread}
    {new : List Thread} (h : Thread.Step o i s t s' t' new)
    (ht : t.scavenges = true → o.disablePurge = false) :
    (t'.scavenges = true → o.disablePurge = false) ∧
      ∀ u ∈ new, u.scavenges = true → o.disablePurge = false := by
  have hnone : ∀ u : Thread, u.scavenges = false → u.scavenges = true → o.disablePurge = false :=
    fun u hf hu => by cases hf.symm.trans hu
  cases h with
  | submit h =>
      refine ⟨hnone _ rfl, ?_⟩
      cases h <;> simp [Thread.scavenges]
  | purge h => exact ⟨fun _ => ht rfl, List.forall_mem_nil _⟩
  | reboot h =>
      cases h with
      | clearPurge hd => exact ⟨fun _ => hd, List.forall_mem_nil _⟩
      | purgeCtx | purgeStop => exact ⟨fun _ => ht rfl, List.forall_mem_nil _⟩
      | purgeSpawn => exact ⟨hnone _ rfl, fun _ _ _ => ht rfl⟩
      | ticktockSpawn => exact ⟨hnone _ rfl, by simp [Thread.scavenges]⟩
      | _ => exact ⟨hnone _ rfl, List.forall_mem_nil _⟩
  | _ => exact ⟨hnone _ rfl, List.forall_mem_nil _⟩

namespace Run
variable {o : Options} {G : Guard} {x : Config}

/-- What a thread has to do with the numbers of the events. -/
theorem numbered (h : Run o G x) : x.shared.Numbered o ∧ ∀ (i : ℕ) (t : Thread),
    x.threads[i]? = some t → (t.scavenges = true → o.disablePurge = false) ∧
      ∀ e, t.closesNext = some e → x.shared.latchNumber e := by
  refine Program.Reach.invariant_threads (J := PoolCore.Numbered o)
    (φ := fun s _ t => (t.scavenges = true → o.disablePurge = false) ∧
      ∀ e, t.closesNext = some e → s.latchNumber e) ?_ ?_ ?_ h
  · intro y hy
    refine ⟨hy.numbered, fun i t ht => ?_⟩
    have hmem := List.mem_of_getElem? ht
    refine ⟨hy.scavenges t hmem, ?_⟩
    rcases hy.fresh.threads t hmem with rfl | rfl | rfl <;> exact nofun
  · intro y c _ _ _
    cases c <;> exact ⟨nofun, nofun⟩
  · intro y i a t r _ hn hall _ ht hr
    have hs := program_step hr
    obtain ⟨hscav, hclose⟩ := hall i t ht
    obtain ⟨hn', hkeep⟩ := hs.numbered hn hscav
    obtain ⟨hself, hnew⟩ := hs.scavenges hscav
    refine ⟨hn', ⟨hself, fun e he => ?_⟩, fun u hu _ _ => ⟨hnew u hu, ?_⟩, fun j u _ hj => ?_⟩
    · obtain ⟨hsame, rfl⟩ := hs.closesNext he
      exact hsame ▸ hn.latch
    · rcases hs.new_cases hu with ⟨w, rfl⟩ | rfl | rfl <;> exact nofun
    · exact ⟨(hall j u hj).1, fun e he => hkeep e ((hall j u hj).2 e he)⟩

end Run

/-! ## What stands while a call is in progress -/

section Events
variable {events : ℕ → Bool} {ctx stop : Option ℕ} {e : ℕ}

theorem Over.close (h : Over events ctx stop) (e : ℕ) :
    Over (Function.update events e true) ctx stop := by
  refine ⟨h.1, fun c hc => ?_⟩
  rw [Function.update_apply, h.2 c hc, ite_self]

theorem Stands.close (h : Stands events ctx stop) (hne : ctx ≠ some e) :
    Stands (Function.update events e true) ctx stop := by
  refine ⟨h.1, fun c hc => ?_⟩
  have hce : c ≠ e := by
    rintro rfl
    exact hne hc
  rw [Function.update_of_ne hce, h.2 c hc]

theorem Stands.new (h : Stands events ctx stop) (e : ℕ) :
    Stands (Function.update events e false) ctx stop := by
  refine ⟨h.1, fun c hc => ?_⟩
  rw [Function.update_apply, h.2 c hc, ite_self]

theorem Over.new (h : Over events ctx stop) (hne : ctx ≠ some e) :
    Over (Function.update events e false) ctx stop := by
  refine ⟨h.1, fun c hc => ?_⟩
  have hce : c ≠ e := by
    rintro rfl
    exact hne hc
  rw [Function.update_of_ne hce, h.2 c hc]

theorem Over.congr {events' : ℕ → Bool} {ctx' stop' : Option ℕ} (h : Over events ctx stop)
    (hctx : ctx' = ctx) (hstop : stop' = stop) (hev : ∀ c, ctx = some c → events' c = events c) :
    Over events' ctx' stop' := by
  subst hctx hstop
  exact ⟨h.1, fun c hc => (hev c hc).trans (h.2 c hc)⟩

theorem Stands.congr {events' : ℕ → Bool} {ctx' stop' : Option ℕ} (h : Stands events ctx stop)
    (hctx : ctx' = ctx) (hstop : stop' = stop) (hev : ∀ c, ctx = some c → events' c = events c) :
    Stands events' ctx' stop' := by
  subst hctx hstop
  exact ⟨h.1, fun c hc => (hev c hc).trans (h.2 c hc)⟩

end Events

namespace PoolCore

theorem Settled.stopped {s : PoolCore} (h : s.Settled) (hc : s.state = .closed) : s.Stopped :=
  h.resolve_left fun hl => by cases hl.state.symm.trans hc

theorem Settled.live {s : PoolCore} (h : s.Settled) (ho : s.state = .opened) : s.Live :=
  h.resolve_right fun hs => by cases hs.state.symm.trans ho

end PoolCore

namespace Release

/-- A `release_context` has the current contexts. -/
def copied (s : PoolCore) (t : Release) : Prop :=
  t.purgeCtx = s.purgeCtx ∧ t.ticktockCtx = s.ticktockCtx

/-- What stands at each place of a release. -/
def Standing (o : Options) (s : PoolCore) (t : Release) : Prop :=
  match t.pc with
  | .entryClosed | .returned _ => s.Settled
  | .entryPurge | .entryTicktock | .copyPurgeCtx => s.Live
  | .copyTicktockCtx => s.Live ∧ t.purgeCtx = s.purgeCtx
  | .exchange => (t.mode = .plain ∧ s.Settled) ∨ (s.Live ∧ t.copied s)
  | .takePurge =>
      s.state = .closed ∧ Stands s.events s.purgeCtx s.stopPurge ∧
        Stands s.events s.ticktockCtx s.stopTicktock ∧ (t.mode = .plain ∨ t.copied s)
  | .cancelPurge e =>
      s.state = .closed ∧ (s.stopPurge = none ∧ s.purgeCtx = some e) ∧
        Stands s.events s.ticktockCtx s.stopTicktock ∧ (t.mode = .plain ∨ t.copied s)
  | .takeTicktock =>
      s.state = .closed ∧ Over s.events s.purgeCtx s.stopPurge ∧
        Stands s.events s.ticktockCtx s.stopTicktock ∧ (t.mode = .plain ∨ t.copied s)
  | .cancelTicktock e =>
      s.state = .closed ∧ Over s.events s.purgeCtx s.stopPurge ∧
        (s.stopTicktock = none ∧ s.ticktockCtx = some e) ∧ (t.mode = .plain ∨ t.copied s)
  | .reset | .broadcast | .checkRunning | .latchFetch | .latchClose _ =>
      s.Stopped ∧ (t.mode = .plain ∨ t.copied s)
  | .waitFetch => s.Stopped ∧ t.copied s
  | .waitLatch e | .ctxErr e | .waitTimeout e | .waitPurgeCtx e | .waitTicktockCtx e
  | .testRunning e | .testTicktockDone e | .retry e => s.Stopped ∧ t.copied s ∧ e = s.allDone
  | .testPurgeDone e => s.Stopped ∧ t.copied s ∧ e = s.allDone ∧ o.disablePurge = false

theorem After.standing {o : Options} {s : PoolCore} {m : ReleaseMode} {p k : Option ℕ} {pc : ReleasePc}
    (h : After m pc) (hs : s.Stopped) (hc : m = .plain ∨ Release.copied s ⟨m, p, k, pc⟩) :
    Release.Standing o s ⟨m, p, k, pc⟩ := by
  cases h with
  | wait => exact ⟨hs, hc.resolve_left nofun⟩
  | plain | noCtx => exact .inr hs

theorem Step.standing {o : Options} {i : ℕ} {s s' : PoolCore} {t t' : Release}
    (h : Release.Step o i s t s' t') (hn : s.Numbered o) (ht : t.Standing o s) :
    t'.Standing o s' := by
  cases h with
  | entryRefused => exact ht
  | entryOpened ho => exact ht.live ho
  | entryNoPurge | entryNoTicktock => exact .inl ht
  | entryPurge | entryTicktock => exact ht
  | copyPurgeCtx => exact ⟨ht, rfl⟩
  | copyTicktockCtx => exact .inr ⟨ht.1, ht.2, rfl⟩
  | exchangeFails hc ha =>
      rcases ht with ⟨rfl, hs⟩ | ⟨hl, _⟩
      · exact ha.standing (hs.stopped hc) (.inl rfl)
      · cases hl.state.symm.trans hc
  | exchange ho =>
      rcases ht with ⟨hm, hs⟩ | ⟨hl, hc⟩
      · have hl := hs.live ho
        exact ⟨rfl, hl.purge, hl.ticktock, .inl hm⟩
      · exact ⟨rfl, hl.purge, hl.ticktock, .inr hc⟩
  | noPurge hp =>
      obtain ⟨hc, ⟨hstop, _⟩, hk, hcopied⟩ := ht
      refine ⟨hc, ⟨hp, fun c hctx => ?_⟩, hk, hcopied⟩
      cases (hp.symm.trans hstop).trans hctx
  | takePurge hp =>
      obtain ⟨hc, ⟨hstop, _⟩, hk, hcopied⟩ := ht
      exact ⟨hc, ⟨rfl, hstop.symm.trans hp⟩, hk, hcopied⟩
  | @cancelPurge m p k e =>
      obtain ⟨hc, ⟨hstop, hctx⟩, hk, hcopied⟩ := ht
      refine ⟨hc, ⟨hstop, fun c hcc => ?_⟩, hk.close (hn.purge e hctx).2, hcopied⟩
      cases hctx.symm.trans hcc
      exact Function.update_self ..
  | noTicktock hk =>
      obtain ⟨hc, hp, ⟨hstop, _⟩, hcopied⟩ := ht
      refine ⟨⟨hc, hp, hk, fun c hctx => ?_⟩, hcopied⟩
      cases (hk.symm.trans hstop).trans hctx
  | takeTicktock hk =>
      obtain ⟨hc, hp, ⟨hstop, _⟩, hcopied⟩ := ht
      exact ⟨hc, hp, ⟨rfl, hstop.symm.trans hk⟩, hcopied⟩
  | @cancelTicktock m p k e =>
      obtain ⟨hc, hp, ⟨hstop, hctx⟩, hcopied⟩ := ht
      refine ⟨⟨hc, hp.close e, hstop, fun c hcc => ?_⟩, hcopied⟩
      cases hctx.symm.trans hcc
      exact Function.update_self ..
  | reset =>
      obtain ⟨hs, hcopied⟩ := ht
      obtain ⟨_, _, hr, _⟩ := Release.reset_frame i s
      rw [hr]
      exact ⟨⟨hs.state, hs.purge, hs.ticktock⟩, hcopied⟩
  | broadcast => exact ⟨⟨ht.1.state, ht.1.purge, ht.1.ticktock⟩, ht.2⟩
  | idle | latchFetch => exact ht
  | busy _ ha => exact ha.standing ht.1 ht.2
  | @latchClose m p k e pc ha =>
      obtain ⟨hs, hcopied⟩ := ht
      exact ha.standing ⟨hs.state, hs.purge.close e, hs.ticktock.close e⟩ hcopied
  | waitFetch => exact ⟨ht.1, ht.2, rfl⟩
  | quietPurge _ hd => exact ⟨ht.1, ht.2.1, ht.2.2, hd⟩
  | purgeDone | purgeAlive => exact ⟨ht.1, ht.2.1, ht.2.2.1⟩
  | ctxDone | ticktockDone | giveUp => exact .inr ht.1
  | _ => exact ht

end Release

namespace Reboot

/-- What stands at each place of a reboot. -/
def Standing (o : Options) (s : PoolCore) : Reboot → Prop
  | .checkState | .returned => s.Settled
  | .latchFetch | .waitPurge => s.Stopped
  | .latchWait e => s.Stopped ∧ e = s.allDone
  | .waitTicktock => s.Stopped ∧ (o.disablePurge = false → s.purgeDone = true)
  | .exchange => s.Stopped ∧ s.flagged o
  | .clearPurge =>
      s.state = .opened ∧ Over s.events s.purgeCtx s.stopPurge ∧
        Over s.events s.ticktockCtx s.stopTicktock ∧ s.flagged o
  | .purgeCtx =>
      s.state = .opened ∧ s.stopPurge = none ∧
        Over s.events s.ticktockCtx s.stopTicktock ∧ s.ticktockDone = true
  | .purgeStop c =>
      s.state = .opened ∧ (s.purgeCtx = some c ∧ s.events c = false) ∧
        Over s.events s.ticktockCtx s.stopTicktock ∧ s.ticktockDone = true
  | .purgeSpawn | .clearTicktock =>
      s.state = .opened ∧ Stands s.events s.purgeCtx s.stopPurge ∧
        Over s.events s.ticktockCtx s.stopTicktock ∧ s.ticktockDone = true
  | .ticktockNow | .ticktockCtx =>
      s.state = .opened ∧ Stands s.events s.purgeCtx s.stopPurge ∧
        Over s.events s.ticktockCtx s.stopTicktock
  | .ticktockStop c =>
      s.state = .opened ∧ Stands s.events s.purgeCtx s.stopPurge ∧
        s.ticktockCtx = some c ∧ s.events c = false
  | .ticktockSpawn | .replaceLatch => s.Live

theorem Step.standing {o : Options} {s s' : PoolCore} {t t' : Reboot} {new : List Thread}
    (h : Reboot.Step o s t s' t' new) (hn : s.Numbered o) (ht : t.Standing o s) :
    t'.Standing o s' := by
  have hfresh : s.ticktockCtx ≠ some s.eventCount := fun hk => (hn.ticktock _ hk).ne rfl
  cases h with
  | opened => exact ht
  | closed hc => exact ht.stopped hc
  | latchFetch => exact ⟨ht, rfl⟩
  | latchWait => exact ht.1
  | waitPurge hp => exact ⟨ht, hp⟩
  | waitTicktock hk => exact ⟨ht.1, ht.2, hk⟩
  | exchange => exact ⟨rfl, ht.1.purge, ht.1.ticktock, ht.2⟩
  | exchangeFails ho => cases ho.symm.trans ht.1.state
  | clearPurge => exact ⟨ht.1, ht.2.1.1, ht.2.2.1, ht.2.2.2.2⟩
  | clearNoPurge hd =>
      obtain ⟨ho, hp, hk, hf⟩ := ht
      refine ⟨ho, ⟨hp.1.trans (hn.disabled hd).symm, fun c hc => ?_⟩, hk, hf.2⟩
      cases (hn.disabled hd).symm.trans hc
  | purgeCtx =>
      obtain ⟨ho, _, hk, hf⟩ := ht
      exact ⟨ho, ⟨rfl, Function.update_self ..⟩, hk.new hfresh, hf⟩
  | purgeStop =>
      obtain ⟨ho, ⟨hctx, hopen⟩, hk, hf⟩ := ht
      refine ⟨ho, ⟨hctx.symm, fun c hc => ?_⟩, hk, hf⟩
      cases hctx.symm.trans hc
      exact hopen
  | purgeSpawn => exact ht
  | clearTicktock => exact ⟨ht.1, ht.2.1, ht.2.2.1⟩
  | ticktockNow => exact ht
  | ticktockCtx => exact ⟨ht.1, ht.2.1.new _, rfl, Function.update_self ..⟩
  | ticktockStop =>
      obtain ⟨ho, hp, hctx, hopen⟩ := ht
      refine ⟨ho, hp, hctx.symm, fun c hc => ?_⟩
      cases hctx.symm.trans hc
      exact hopen
  | ticktockSpawn => exact ht
  | replaceLatch => exact .inl ⟨ht.state, ht.purge.new _, ht.ticktock.new _⟩

end Reboot

/-- What stands while a call that closes or reopens the pool is in progress. -/
def Thread.Standing (o : Options) (s : PoolCore) : Thread → Prop
  | .release t => t.Standing o s
  | .reboot t => t.Standing o s
  | _ => True

/-- What the other threads leave alone. They may set a done flag. -/
structure PoolCore.Framed (s s' : PoolCore) : Prop where
  state : s'.state = s.state
  purgeCtx : s'.purgeCtx = s.purgeCtx
  stopPurge : s'.stopPurge = s.stopPurge
  ticktockCtx : s'.ticktockCtx = s.ticktockCtx
  stopTicktock : s'.stopTicktock = s.stopTicktock
  allDone : s'.allDone = s.allDone
  purgeEvent : ∀ c, s.purgeCtx = some c → s'.events c = s.events c
  ticktockEvent : ∀ c, s.ticktockCtx = some c → s'.events c = s.events c
  purgeDone : s.purgeDone = true → s'.purgeDone = true
  ticktockDone : s.ticktockDone = true → s'.ticktockDone = true

theorem Thread.Step.framed {o : Options} {i : ℕ} {s s' : PoolCore} {t t' : Thread}
    {new : List Thread} (h : Thread.Step o i s t s' t' new) (ht : t.lifecycle = false)
    (hn : ∀ e, t.closesNext = some e → s.latchNumber e) : s.Framed s' := by
  have hsame : s.Framed s := by constructor <;> first | rfl | exact fun _ _ => rfl | exact id
  cases h with
  | work h =>
      cases h with
      | @latchClose w b e =>
          obtain ⟨_, hp, hk⟩ := hn e rfl
          refine ⟨rfl, rfl, rfl, rfl, rfl, rfl, fun c hc => ?_, fun c hc => ?_, id, id⟩
          · exact Function.update_of_ne (fun he => hp (by rw [← he, hc])) ..
          · exact Function.update_of_ne (fun he => hk (by rw [← he, hc])) ..
      | _ => exact ⟨rfl, rfl, rfl, rfl, rfl, rfl, fun _ _ => rfl, fun _ _ => rfl, id, id⟩
  | submit h =>
      cases h <;> exact ⟨rfl, rfl, rfl, rfl, rfl, rfl, fun _ _ => rfl, fun _ _ => rfl, id, id⟩
  | purge h =>
      cases h with
      | done =>
          exact ⟨rfl, rfl, rfl, rfl, rfl, rfl, fun _ _ => rfl, fun _ _ => rfl, fun _ => rfl, id⟩
      | _ => exact ⟨rfl, rfl, rfl, rfl, rfl, rfl, fun _ _ => rfl, fun _ _ => rfl, id, id⟩
  | ticktock h =>
      cases h with
      | done =>
          exact ⟨rfl, rfl, rfl, rfl, rfl, rfl, fun _ _ => rfl, fun _ _ => rfl, id, fun _ => rfl⟩
      | _ => exact ⟨rfl, rfl, rfl, rfl, rfl, rfl, fun _ _ => rfl, fun _ _ => rfl, id, id⟩
  | tune h =>
      cases h <;> exact ⟨rfl, rfl, rfl, rfl, rfl, rfl, fun _ _ => rfl, fun _ _ => rfl, id, id⟩
  | clock => exact ⟨rfl, rfl, rfl, rfl, rfl, rfl, fun _ _ => rfl, fun _ _ => rfl, id, id⟩
  | release h =>
      cases h <;> first | exact hsame | cases ht
  | reboot h =>
      cases h <;> first | exact hsame | cases ht

namespace PoolCore.Framed
variable {o : Options} {s s' : PoolCore}

theorem purgeStands (h : s.Framed s') (hs : Stands s.events s.purgeCtx s.stopPurge) :
    Stands s'.events s'.purgeCtx s'.stopPurge := hs.congr h.purgeCtx h.stopPurge h.purgeEvent

theorem ticktockStands (h : s.Framed s') (hs : Stands s.events s.ticktockCtx s.stopTicktock) :
    Stands s'.events s'.ticktockCtx s'.stopTicktock :=
  hs.congr h.ticktockCtx h.stopTicktock h.ticktockEvent

theorem purgeOver (h : s.Framed s') (hs : Over s.events s.purgeCtx s.stopPurge) :
    Over s'.events s'.purgeCtx s'.stopPurge := hs.congr h.purgeCtx h.stopPurge h.purgeEvent

theorem ticktockOver (h : s.Framed s') (hs : Over s.events s.ticktockCtx s.stopTicktock) :
    Over s'.events s'.ticktockCtx s'.stopTicktock :=
  hs.congr h.ticktockCtx h.stopTicktock h.ticktockEvent

theorem live (h : s.Framed s') (hs : s.Live) : s'.Live :=
  ⟨h.state.trans hs.state, h.purgeStands hs.purge, h.ticktockStands hs.ticktock⟩

theorem stopped (h : s.Framed s') (hs : s.Stopped) : s'.Stopped :=
  ⟨h.state.trans hs.state, h.purgeOver hs.purge, h.ticktockOver hs.ticktock⟩

theorem settled (h : s.Framed s') (hs : s.Settled) : s'.Settled := hs.imp h.live h.stopped

theorem flagged (h : s.Framed s') (hf : s.flagged o) : s'.flagged o :=
  ⟨fun hd => h.purgeDone (hf.1 hd), h.ticktockDone hf.2⟩

theorem copied {t : Release} (h : s.Framed s') (hc : t.copied s) : t.copied s' :=
  ⟨hc.1.trans h.purgeCtx.symm, hc.2.trans h.ticktockCtx.symm⟩

theorem release {t : Release} (h : s.Framed s') (ht : t.Standing o s) : t.Standing o s' := by
  obtain ⟨m, p, k, pc⟩ := t
  cases pc with
  | entryClosed | returned => exact h.settled ht
  | entryPurge | entryTicktock | copyPurgeCtx => exact h.live ht
  | copyTicktockCtx => exact ⟨h.live ht.1, ht.2.trans h.purgeCtx.symm⟩
  | exchange =>
      exact ht.imp (fun hs => ⟨hs.1, h.settled hs.2⟩) (fun hs => ⟨h.live hs.1, h.copied hs.2⟩)
  | takePurge =>
      exact ⟨h.state.trans ht.1, h.purgeStands ht.2.1, h.ticktockStands ht.2.2.1,
        ht.2.2.2.imp_right h.copied⟩
  | cancelPurge e =>
      exact ⟨h.state.trans ht.1, ⟨h.stopPurge.trans ht.2.1.1, h.purgeCtx.trans ht.2.1.2⟩,
        h.ticktockStands ht.2.2.1, ht.2.2.2.imp_right h.copied⟩
  | takeTicktock =>
      exact ⟨h.state.trans ht.1, h.purgeOver ht.2.1, h.ticktockStands ht.2.2.1,
        ht.2.2.2.imp_right h.copied⟩
  | cancelTicktock e =>
      exact ⟨h.state.trans ht.1, h.purgeOver ht.2.1,
        ⟨h.stopTicktock.trans ht.2.2.1.1, h.ticktockCtx.trans ht.2.2.1.2⟩,
        ht.2.2.2.imp_right h.copied⟩
  | reset | broadcast | checkRunning | latchFetch | latchClose =>
      exact ⟨h.stopped ht.1, ht.2.imp_right h.copied⟩
  | waitFetch => exact ⟨h.stopped ht.1, h.copied ht.2⟩
  | testPurgeDone =>
      exact ⟨h.stopped ht.1, h.copied ht.2.1, ht.2.2.1.trans h.allDone.symm, ht.2.2.2⟩
  | _ => exact ⟨h.stopped ht.1, h.copied ht.2.1, ht.2.2.trans h.allDone.symm⟩

theorem reboot {t : Reboot} (h : s.Framed s') (ht : t.Standing o s) : t.Standing o s' := by
  cases t with
  | checkState | returned => exact h.settled ht
  | latchFetch | waitPurge => exact h.stopped ht
  | latchWait e => exact ⟨h.stopped ht.1, ht.2.trans h.allDone.symm⟩
  | waitTicktock => exact ⟨h.stopped ht.1, fun hd => h.purgeDone (ht.2 hd)⟩
  | exchange => exact ⟨h.stopped ht.1, h.flagged ht.2⟩
  | clearPurge =>
      exact ⟨h.state.trans ht.1, h.purgeOver ht.2.1, h.ticktockOver ht.2.2.1, h.flagged ht.2.2.2⟩
  | purgeCtx =>
      exact ⟨h.state.trans ht.1, h.stopPurge.trans ht.2.1, h.ticktockOver ht.2.2.1,
        h.ticktockDone ht.2.2.2⟩
  | purgeStop c =>
      exact ⟨h.state.trans ht.1, ⟨h.purgeCtx.trans ht.2.1.1, (h.purgeEvent c ht.2.1.1).trans ht.2.1.2⟩,
        h.ticktockOver ht.2.2.1, h.ticktockDone ht.2.2.2⟩
  | purgeSpawn | clearTicktock =>
      exact ⟨h.state.trans ht.1, h.purgeStands ht.2.1, h.ticktockOver ht.2.2.1,
        h.ticktockDone ht.2.2.2⟩
  | ticktockNow | ticktockCtx =>
      exact ⟨h.state.trans ht.1, h.purgeStands ht.2.1, h.ticktockOver ht.2.2⟩
  | ticktockStop c =>
      exact ⟨h.state.trans ht.1, h.purgeStands ht.2.1, h.ticktockCtx.trans ht.2.2.1,
        (h.ticktockEvent c ht.2.2.1).trans ht.2.2.2⟩
  | ticktockSpawn | replaceLatch => exact h.live ht

theorem thread {t : Thread} (h : s.Framed s') (ht : t.Standing o s) : t.Standing o s' := by
  cases t with
  | release t => exact h.release ht
  | reboot t => exact h.reboot ht
  | _ => trivial

end PoolCore.Framed

namespace Thread

theorem Step.standing {o : Options} {i : ℕ} {s s' : PoolCore} {t t' : Thread} {new : List Thread}
    (h : Thread.Step o i s t s' t' new) (hn : s.Numbered o) (ht : t.Standing o s) :
    t'.Standing o s' := by
  cases h with
  | release h => exact h.standing hn ht
  | reboot h => exact h.standing hn ht
  | _ => trivial

/-- A call that returns leaves the pool settled. -/
theorem Standing.settled {o : Options} {s : PoolCore} {t u : Thread} (h : u.Standing o s)
    (hu : u.lifecycle = false) (ht : t.lifecycle = true) {i : ℕ} {s₀ : PoolCore} {new : List Thread}
    (hs : Thread.Step o i s₀ t s u new) : s.Settled := by
  cases hs with
  | @release _ _ t' _ =>
      obtain ⟨m, p, k, pc⟩ := t'
      cases pc with
      | returned => exact h
      | _ => cases hu
  | @reboot _ _ t' =>
      cases t' with
      | returned => exact h
      | _ => cases hu
  | _ => cases ht

theorem Standing.start {o : Options} {s : PoolCore} (hs : s.Settled) (i : ℕ) (c : Call) :
    (c.start i).Standing o s := by
  cases c with
  | release => exact .inl ⟨rfl, hs⟩
  | releaseContext | reboot => exact hs
  | _ => trivial

end Thread

namespace Run
variable {o : Options} {G : Guard} {x : Config}

/-- Between calls the pool is settled, and while one is in progress what its place says
stands. -/
theorem standing (hG : ∀ x m, G x m → nonOverlapping x m) (h : Run o G x) :
    ((∀ t ∈ x.threads, t.lifecycle = false) → x.shared.Settled) ∧
      ∀ (i : ℕ) (t : Thread), x.threads[i]? = some t → t.lifecycle = true →
        t.Standing o x.shared := by
  refine Program.Reach.invariant (J := fun x =>
    ((∀ t ∈ x.threads, t.lifecycle = false) → x.shared.Settled) ∧
      ∀ (i : ℕ) (t : Thread), x.threads[i]? = some t → t.lifecycle = true →
        t.Standing o x.shared) ?_ ?_ ?_ h
  · intro y hy
    refine ⟨fun _ => .inl hy.live, fun i t ht hl => ?_⟩
    rcases hy.fresh.threads t (List.mem_of_getElem? ht) with rfl | rfl | rfl <;> cases hl
  · intro y c _ hy hg
    refine ⟨fun hidle => hy.1 fun t ht => hidle t (List.mem_append_left _ ht), fun i t ht hl => ?_⟩
    rcases getElem?_concat_cases ht with ht | ⟨rfl, rfl⟩
    · exact hy.2 i t ht hl
    · have hguard := hG _ _ hg
      have hstart : y.shared.Settled → (c.start y.threads.length).Standing o y.shared :=
        fun hs => .start hs _ c
      cases c with
      | submit | tune => cases hl
      | release | releaseContext | reboot => exact hstart (hy.1 hguard)
  · intro y i a t r hr hy _ ht hn
    have hs := program_step hn
    have hnum := Run.numbered hr
    cases hl : t.lifecycle with
    | true =>
        have hself := hs.standing hnum.1 (hy.2 i t ht hl)
        constructor
        · intro hidle
          have hret := hidle _ (List.mem_of_getElem? (Config.getElem?_after_self ht))
          exact hself.settled hret hl hs
        · intro j u hu hul
          rcases Config.getElem?_after ht hu with ⟨rfl, rfl⟩ | ⟨hj, hu⟩ | ⟨_, hu⟩
          · exact hself
          · exact (hj (Run.lifecycle_unique hG hr _ _ _ _ hu ht hul hl)).elim
          · rcases hs.new_cases hu with ⟨w, rfl⟩ | rfl | rfl <;> cases hul
    | false =>
        have hframe := hs.framed hl (hnum.2 i t ht).2
        have hstays : r.2.1.lifecycle = false := by
          cases hl' : r.2.1.lifecycle with
          | false => rfl
          | true => cases hl.symm.trans (hs.lifecycle hl')
        constructor
        · intro hidle
          refine hframe.settled (hy.1 fun u hu => ?_)
          obtain ⟨j, hj⟩ := List.mem_iff_getElem?.mp hu
          by_cases hji : j = i
          · subst hji
            cases Option.some.inj (ht.symm.trans hj)
            exact hl
          · exact hidle u (List.mem_of_getElem? (Config.getElem?_after_ne hji hj))
        · intro j u hu hul
          rcases Config.getElem?_after ht hu with ⟨rfl, rfl⟩ | ⟨hj, hu⟩ | ⟨_, hu⟩
          · cases hstays.symm.trans hul
          · exact hframe.thread (hy.2 j u hu hul)
          · rcases hs.new_cases hu with ⟨w, rfl⟩ | rfl | rfl <;> cases hul

end Run

end AntsPool
