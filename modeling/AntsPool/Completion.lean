import AntsPool.Epochs

/-!
# The calls that close and reopen a pool come to an end

What a reboot and a `release_context` wait for, the latch, the contexts and the done
flags, comes about by itself once the pool is closed, as long as these calls do not
overlap: the pool drains, and what is left when nothing else goes on lets them pass.
-/
namespace AntsPool
open Interleaving ListTotals

/-- A reboot that has found the pool closed and not opened it yet. -/
def Reboot.waiting : Reboot → Bool
  | .checkState | .latchFetch | .latchWait _ | .waitPurge | .waitTicktock | .exchange => true
  | _ => false

/-- Calls that close or reopen do not overlap, and no reboot makes its exchange. -/
def closing : Guard := fun x m => nonOverlapping x m ∧ noReopen x m

namespace Run
variable {o : Options} {x : Config}

theorem replaced_in_time (y : Config) (m : Move) (hy : Run o nonOverlapping y)
    (_ : nonOverlapping y m) : replacedInTime y m := by
  cases m with
  | call c => trivial
  | step i a =>
      intro hi hc
      cases ((hy.lifecycle_state (fun _ _ => id) i _ hi).2 rfl).symm.trans hc

/-- A closed pool is not being reopened. -/
theorem shut_of_closed (h : Run o nonOverlapping x) (hc : x.shared.state = .closed) : shut x := by
  refine ⟨hc, fun t ht => ?_⟩
  obtain ⟨i, hi⟩ := List.mem_iff_getElem?.mp ht
  cases hre : t.reopening with
  | false => rfl
  | true => cases ((h.lifecycle_state (fun _ _ => id) i t hi).2 hre).symm.trans hc

theorem drained_of_atRest (h : Run o nonOverlapping x) (hc : x.shared.state = .closed)
    (hrest : atRest o x) : Drained x :=
  Run.drained (Program.Reach.weaken (fun _ _ _ => trivial) h) hc hrest

/-- A closed pool at rest has closed its latch. -/
theorem latch_of_atRest (h : Run o nonOverlapping x) (hc : x.shared.state = .closed)
    (hrest : atRest o x) : x.shared.events x.shared.allDone = true := by
  have hdrained := h.drained_of_atRest hc hrest
  refine (h.covered replaced_in_time hc).closed hdrained.running (fun u hu => ?_) fun u hu => ?_
  · cases u with
    | work u =>
        obtain ⟨w, b, pc⟩ := u
        rcases hdrained.workers _ hu with hpc | hpc <;> cases hpc <;> rfl
    | _ => rfl
  · cases u with
    | release u =>
        cases hb : u.pc.polling with
        | true =>
            obtain ⟨m, p, k, pc⟩ := u
            cases pc <;> first | rfl | cases hb
        | false => cases h.rests_of_atRest hrest hu (by simp [Thread.busy, hb]) <;> rfl
    | _ => rfl

/-- A closed pool at rest has set the flags of its background threads, as far as these
have not died. -/
theorem flagged_of_atRest (h : Run o nonOverlapping x) (hring : x.shared.workers.inRange)
    (hc : x.shared.state = .closed) (hrest : atRest o x) : x.shared.flagged o := by
  have hdrained := h.drained_of_atRest hc hrest
  have hidle := (h.shut_of_closed hc).2
  obtain ⟨hpurge, hticktock⟩ := h.flags_kept
  constructor
  · intro hd
    refine (hpurge hd).resolve_right fun ⟨t, ht, hdue⟩ => ?_
    have hlives : t ≠ .purge .panicked := fun hp => h.not_panicked hring (hp ▸ ht)
    cases (hdrained.background t ht).1.symm.trans ((alive_of_due (hidle t ht)).1 hdue hlives)
  · refine hticktock.resolve_right fun ⟨t, ht, hdue⟩ => ?_
    cases (hdrained.background t ht).2.symm.trans ((alive_of_due (hidle t ht)).2 hdue)

/-- So a reboot that waits has passed its waits. -/
theorem reboot_of_atRest (h : Run o nonOverlapping x) (hring : x.shared.workers.inRange)
    (hc : x.shared.state = .closed) (hrest : atRest o x) {i : ℕ} {t : Reboot}
    (hi : x.threads[i]? = some (.reboot t)) (hw : t.waiting = true) : t = .exchange := by
  have hstand := (h.standing fun _ _ => id).2 i _ hi
  have hflagged := h.flagged_of_atRest hring hc hrest
  cases t with
  | exchange => rfl
  | checkState | latchFetch => cases h.rests_of_atRest hrest (List.mem_of_getElem? hi) rfl
  | latchWait e =>
      cases h.rests_of_atRest hrest (List.mem_of_getElem? hi) rfl with
      | latch he =>
          obtain ⟨_, rfl⟩ := hstand rfl
          cases he.symm.trans (h.latch_of_atRest hc hrest)
  | waitPurge =>
      cases h.rests_of_atRest hrest (List.mem_of_getElem? hi) rfl with
      | purgeDone hd hf => cases hf.symm.trans (hflagged.1 hd)
  | waitTicktock =>
      cases h.rests_of_atRest hrest (List.mem_of_getElem? hi) rfl with
      | ticktockDone hf => cases hf.symm.trans hflagged.2
  | _ => cases hw

end Run

/-- In a closed pool a waiting reboot goes on waiting up to its exchange. -/
theorem waiting_of_reach {o : Options} {x₀ x : Config} {i : ℕ} {t : Reboot}
    (h₀ : shut x₀) (hi : x₀.threads[i]? = some (.reboot t)) (hw : t.waiting = true)
    (hx : (program o).Reach (fun z => z = x₀) noReopen x) :
    ∃ u : Reboot, x.threads[i]? = some (.reboot u) ∧ u.waiting = true := by
  refine Program.Reach.invariant
    (J := fun x => ∃ u : Reboot, x.threads[i]? = some (.reboot u) ∧ u.waiting = true) ?_ ?_ ?_ hx
  · rintro y rfl
    exact ⟨t, hi, hw⟩
  · rintro y c _ ⟨u, hu, huw⟩ _
    have hlt := (List.getElem?_eq_some_iff.mp hu).1
    exact ⟨u, by rw [Program.entered, List.getElem?_append_left hlt, hu], huw⟩
  · rintro y j a v r hy ⟨u, hu, huw⟩ hg hj hn
    rcases eq_or_ne i j with rfl | hij
    · cases Option.some.inj (hu.symm.trans hj)
      have hc := (shut_of_reach h₀ hy).1
      have hs := program_step hn
      obtain ⟨s', v', new⟩ := r
      cases hs with
      | reboot hs =>
          refine ⟨_, Config.getElem?_after_self hj, ?_⟩
          cases hs with
          | opened ho | exchangeFails ho => cases hc.symm.trans ho
          | exchange => exact (hg hu).elim
          | closed | latchFetch | latchWait | waitPurge | waitTicktock => rfl
          | _ => cases huw
    · exact ⟨u, Config.getElem?_after_ne hij hu, huw⟩

/-- The runs of a pool from which a call of this kind is to come to an end. -/
theorem Run.extend {o : Options} {x₀ x : Config} (h₀ : Run o nonOverlapping x₀)
    (hx : (program o).Reach (fun z => z = x₀) closing x) :
    Run o nonOverlapping x ∧ (program o).Reach (fun z => z = x₀) noReopen x :=
  ⟨h₀.trans (hx.weaken fun _ _ hg => hg.1), hx.weaken fun _ _ hg => hg.2⟩

/-- The budget of a closed pool, under the same guard. -/
theorem Run.busy_le {o : Options} {x₀ x : Config} {h : List (Event PoolCore Thread Call Env)}
    (h₀ : Run o nonOverlapping x₀) (hc : x₀.shared.state = .closed)
    (hx : (program o).Trace (fun z => z = x₀) closing h x) :
    (h.countP (Event.isBusy Thread.busy) : ℤ) ≤
      drainLedger.balance x₀ + 17 * h.countP Event.isCall := by
  have hshut := h₀.shut_of_closed hc
  refine Program.Trace.busy_le drainLedger_solvent (fun i c => ?_) ?_ hx
  · exact Int.ofNat_le.mpr (Call.toGo_le i c)
  · intro y i a t r hy
    exact toGo_of_shut hshut y i a t r (hy.weaken fun _ _ hg => hg.2)

/-- A reboot of a closed pool is never stuck for good, unless the search of its ring can
overflow. However it is interleaved, the threads of the pool take a bounded number of steps
up to its exchange, and when none of them can go on the reboot has passed all its waits;
such a state can be reached. -/
theorem reboot_is_not_wedged {o : Options} {x₀ : Config} (h₀ : Run o nonOverlapping x₀)
    (hring : x₀.shared.workers.inRange) (hc : x₀.shared.state = .closed) {i : ℕ} {t : Reboot}
    (hi : x₀.threads[i]? = some (.reboot t)) (hw : t.waiting = true) :
    (∀ h x, (program o).Trace (fun z => z = x₀) closing h x →
      (h.countP (Event.isBusy Thread.busy) : ℤ) ≤
        drainLedger.balance x₀ + 17 * h.countP Event.isCall ∧
      (atRest o x → x.threads[i]? = some (.reboot .exchange))) ∧
    ∃ x, (program o).Reach (fun z => z = x₀) closing x ∧
      x.threads[i]? = some (.reboot .exchange) := by
  have hshut := h₀.shut_of_closed hc
  have hpassed : ∀ x, (program o).Reach (fun z => z = x₀) closing x → atRest o x →
      x.threads[i]? = some (.reboot .exchange) := by
    intro x hx hrest
    obtain ⟨hrun, hreach⟩ := h₀.extend hx
    obtain ⟨u, hu, huw⟩ := waiting_of_reach hshut hi hw hreach
    have hring' := inRange_of_reach hring hreach
    rw [hu, hrun.reboot_of_atRest hring' (shut_of_reach hshut hreach).1 hrest hu huw]
  constructor
  · exact fun h x hx => ⟨h₀.busy_le hc hx, hpassed x hx.reach⟩
  · obtain ⟨x, hx, hrest⟩ := Program.Reach.exists_atRest (P := program o) (G := closing)
      drainLedger_solvent (fun y j u a hj hb => ⟨trivial, busy_allowed y j u a hj hb⟩)
      (fun y j a u r hy => toGo_of_shut hshut y j a u r (hy.weaken fun _ _ hg => hg.2)) (.init rfl)
    exact ⟨x, hx, hpassed x hx hrest⟩

/-- A reboot of a small pool waits for the background threads. -/
def rebootedPool : Config :=
  ((program scavengedOptions).run nonOverlapping scavengedPool
    (.call .release :: steps 3 10 ++ .call .reboot :: steps 4 3)).get (by decide)

theorem reboot_is_not_wedged_small :
    (program scavengedOptions).next rebootedPool.shared 4 (.reboot .waitPurge) .ok = none ∧
      ∃ x, (program scavengedOptions).Reach (fun z => z = rebootedPool) closing x ∧
        x.threads[4]? = some (.reboot .exchange) := by
  have hrun : Run scavengedOptions nonOverlapping rebootedPool :=
    Program.Reach.run (.init scavengedPool_starts) (Option.some_get _).symm
  have hi : rebootedPool.threads[4]? = some (.reboot .waitPurge) := by decide
  exact ⟨rfl, (reboot_is_not_wedged hrun (by decide) (by decide) hi rfl).2⟩

/-! ## The waiting part of `release_context` -/

/-- How many steps are left to a `release_context` that finds everything done. -/
def ReleasePc.pollsLeft : ReleasePc → ℕ
  | .retry _ | .ctxErr _ => 7
  | .waitLatch _ | .waitTimeout _ => 6
  | .waitPurgeCtx _ => 5
  | .waitTicktockCtx _ => 4
  | .testRunning _ => 3
  | .testPurgeDone _ => 2
  | .testTicktockDone _ => 1
  | _ => 0

/-- A pool whose latch is closed, whose workers are gone and whose flags are set. -/
structure PoolCore.Quiet (o : Options) (s : PoolCore) : Prop where
  latch : s.events s.allDone = true
  running : s.running = 0
  flags : s.flagged o

/-- A `release_context` whose own context is live goes through to its end in a quiet
pool, and its steps change nothing. -/
theorem Release.poll_step {o : Options} {i : ℕ} {s : PoolCore} {t : Release} (ht : t.Standing o s)
    (hs : s.Quiet o) (hp : t.pc.polling = true) :
    ∃ pc, t.next o i s .ok = some (s, { t with pc := pc }) ∧
      Release.Standing o s { t with pc := pc } ∧
      (pc = .returned none ∨ pc.polling = true ∧ pc.pollsLeft < t.pc.pollsLeft) := by
  obtain ⟨m, p, k, pc⟩ := t
  obtain ⟨hlatch, hrun, hpurge, hticktock⟩ := hs
  cases pc with
  | waitLatch e =>
      obtain ⟨hstop, hcopied, rfl⟩ := ht
      refine ⟨.waitPurgeCtx s.allDone, ?_, ⟨hstop, hcopied, rfl⟩, .inr ⟨rfl, Nat.lt_succ_self _⟩⟩
      simp [Release.next, hlatch]
  | ctxErr e => exact ⟨.waitTimeout e, rfl, ht, .inr ⟨rfl, Nat.lt_succ_self _⟩⟩
  | waitTimeout e =>
      obtain ⟨hstop, hcopied, rfl⟩ := ht
      refine ⟨.waitPurgeCtx s.allDone, ?_, ⟨hstop, hcopied, rfl⟩, .inr ⟨rfl, Nat.lt_succ_self _⟩⟩
      simp [Release.next, hlatch]
  | waitPurgeCtx e =>
      refine ⟨.waitTicktockCtx e, ?_, ht, .inr ⟨rfl, Nat.lt_succ_self _⟩⟩
      obtain ⟨hstop, ⟨rfl, _⟩, _⟩ := ht
      simp only [Release.next]
      split_ifs
      · rfl
      · split
        · rfl
        · rename_i c hc
          rw [hstop.purge.2 c hc, if_pos rfl]
  | waitTicktockCtx e =>
      refine ⟨.testRunning e, ?_, ht, .inr ⟨rfl, Nat.lt_succ_self _⟩⟩
      obtain ⟨hstop, ⟨_, rfl⟩, _⟩ := ht
      simp only [Release.next]
      split
      · rfl
      · rename_i c hc
        rw [hstop.ticktock.2 c hc, if_pos rfl]
  | testRunning e =>
      cases hd : o.disablePurge with
      | true =>
          refine ⟨.testTicktockDone e, ?_, ht, .inr ⟨rfl, Nat.lt_add_of_pos_right two_pos⟩⟩
          simp [Release.next, hrun, hd]
      | false =>
          refine ⟨.testPurgeDone e, ?_, ⟨ht.1, ht.2.1, ht.2.2, hd⟩, .inr ⟨rfl, Nat.lt_succ_self _⟩⟩
          simp [Release.next, hrun, hd]
  | testPurgeDone e =>
      obtain ⟨hstop, hcopied, he, hd⟩ := ht
      refine ⟨.testTicktockDone e, ?_, ⟨hstop, hcopied, he⟩, .inr ⟨rfl, Nat.lt_succ_self _⟩⟩
      simp [Release.next, hpurge hd]
  | testTicktockDone e =>
      refine ⟨.returned none, ?_, .inr ht.1, .inl rfl⟩
      simp [Release.next, hticktock]
  | retry e => exact ⟨.waitLatch e, rfl, ht, .inr ⟨rfl, Nat.lt_succ_self _⟩⟩
  | _ => cases hp

theorem ReleasePc.pollsLeft_pos {pc : ReleasePc} (h : pc.polling = true) : 0 < pc.pollsLeft := by
  cases pc <;> first | exact Nat.succ_pos _ | cases h

theorem ReleasePc.pollsLeft_le (pc : ReleasePc) : pc.pollsLeft ≤ 7 := by
  cases pc <;> simp [pollsLeft]

/-- So it returns `Ok` when it runs by itself. -/
theorem Release.polls_through {o : Options} {x : Config} {i : ℕ} {t : Release}
    (hi : x.threads[i]? = some (.release t)) (ht : t.Standing o x.shared) (hs : x.shared.Quiet o)
    (hp : t.pc.polling = true) :
    ∃ n ≤ t.pc.pollsLeft, ∃ y, (program o).run anyMove x (steps i n) = some y ∧
      y.threads[i]? = some (.release { t with pc := .returned none }) := by
  induction hk : t.pc.pollsLeft using Nat.strong_induction_on generalizing x t with
  | _ k ih =>
      obtain ⟨pc, hn, hstand, hpc⟩ := t.poll_step (i := i) ht hs hp
      let r : PoolCore × Thread × List Thread := (x.shared, .release { t with pc := pc }, [])
      have hnext : (program o).next x.shared i (.release t) .ok = some r :=
        congrArg (Option.map fun q : PoolCore × Release =>
          (q.1, Thread.release q.2, ([] : List Thread))) hn
      have hfire : (program o).fire x (.step i .ok) = some (x.after i r) := by
        simp only [Program.fire, hi, hnext, Option.map_some]
      have hafter := Config.getElem?_after_self (r := r) hi
      have hrun : ∀ m, (program o).run anyMove x (steps i (m + 1)) =
          (program o).run anyMove (x.after i r) (steps i m) := by
        intro m
        have hany : anyMove x (.step i .ok) := trivial
        simp only [steps, List.replicate_succ, Program.run, if_pos hany, hfire, Option.bind_some]
      rcases hpc with rfl | ⟨hpc, hlt⟩
      · have hpos := ReleasePc.pollsLeft_pos hp
        exact ⟨1, by omega, x.after i r, by rw [hrun]; rfl, hafter⟩
      · obtain ⟨n, hle, y, hy, hret⟩ := ih pc.pollsLeft (hk ▸ hlt) hafter hstand hs hpc rfl
        exact ⟨n + 1, by omega, y, by rw [hrun, hy], hret⟩

/-- A release waits for nothing but the spin lock: the contexts that `release_context` has
copied are the ones that its `release()` cancels. -/
theorem Run.release_goes_on {o : Options} {x : Config} (h : Run o nonOverlapping x) {i : ℕ}
    {t : Release} (hi : x.threads[i]? = some (.release t))
    (hstuck : (Thread.release t).stuck o x.shared i) :
    (x.shared.locked = true ∧ t.pc = .reset) ∨ ∃ r, t.pc = .returned r := by
  by_cases hlock : t.pc = .reset ∧ x.shared.locked = true
  · exact .inl ⟨hlock.2, hlock.1⟩
  · have hfree : t.pc = .reset → x.shared.locked = false :=
      fun hpc => by simpa using fun hl => hlock ⟨hpc, hl⟩
    have hstand := (h.standing fun _ _ => id).2 i _ hi
    cases hstuck.rests_release hfree with
    | released => exact .inr ⟨_, rfl⟩
    | purgeCtx hp he =>
        obtain ⟨hstop, ⟨hcopy, _⟩, _⟩ := hstand rfl
        cases he.symm.trans (hstop.purge.2 _ (hcopy.symm.trans hp))
    | ticktockCtx hk he =>
        obtain ⟨hstop, ⟨_, hcopy⟩, _⟩ := hstand rfl
        cases he.symm.trans (hstop.ticktock.2 _ (hcopy.symm.trans hk))

/-- A `release_context` comes to an end, unless the search of the ring can overflow. It
never blocks, but for the spin lock; once it waits the threads of the pool take a bounded
number of steps, and when none of them can go on it returns `Ok` in seven steps, its own
context being live. -/
theorem release_context_completes {o : Options} {x₀ : Config} (h₀ : Run o nonOverlapping x₀)
    (hring : x₀.shared.workers.inRange) {i : ℕ} {t : Release}
    (hi : x₀.threads[i]? = some (.release t)) :
    ((Thread.release t).stuck o x₀.shared i →
      (x₀.shared.locked = true ∧ t.pc = .reset) ∨ ∃ r, t.pc = .returned r) ∧
    (t.pc.polling = true →
      (∀ h x, (program o).Trace (fun z => z = x₀) closing h x →
        (h.countP (Event.isBusy Thread.busy) : ℤ) ≤
          drainLedger.balance x₀ + 17 * h.countP Event.isCall) ∧
      (atRest o x₀ → ∃ n ≤ 7, ∃ y, (program o).run anyMove x₀ (steps i n) = some y ∧
        y.threads[i]? = some (.release { t with pc := .returned none }))) := by
  refine ⟨h₀.release_goes_on hi, fun hp => ?_⟩
  have hlive : (Thread.release t).lifecycle = true := by
    obtain ⟨m, p, k, pc⟩ := t
    cases pc <;> first | rfl | cases hp
  have hstand : t.Standing o x₀.shared := (h₀.standing fun _ _ => id).2 i _ hi hlive
  have hc : x₀.shared.state = .closed := by
    obtain ⟨m, p, k, pc⟩ := t
    cases pc <;> first | exact hstand.1.state | cases hp
  refine ⟨fun h x hx => h₀.busy_le hc hx, fun hrest => ?_⟩
  have hquiet : x₀.shared.Quiet o :=
    ⟨h₀.latch_of_atRest hc hrest, (h₀.drained_of_atRest hc hrest).running,
      h₀.flagged_of_atRest hring hc hrest⟩
  obtain ⟨n, hle, hy⟩ := Release.polls_through hi hstand hquiet hp
  exact ⟨n, hle.trans t.pc.pollsLeft_le, hy⟩

/-- A `release_context` of a small pool has come to its context. -/
def releasingPool : Config :=
  ((program smallOptions).run nonOverlapping smallPool
    (.call (.releaseContext true) :: steps 2 17)).get (by decide)

theorem release_context_completes_small :
    releasingPool.threads[2]? =
        some (.release ⟨.context true, none, some 1, .waitTicktockCtx 0⟩) ∧
      ¬ (Thread.release ⟨.context true, none, some 1, .waitTicktockCtx 0⟩).stuck smallOptions
        releasingPool.shared 2 := by
  have hrun : Run smallOptions nonOverlapping releasingPool :=
    Program.Reach.run (.init smallPool_starts) (Option.some_get _).symm
  have hi : releasingPool.threads[2]? =
      some (.release ⟨.context true, none, some 1, .waitTicktockCtx 0⟩) := by decide
  refine ⟨hi, fun hstuck => ?_⟩
  rcases (release_context_completes hrun (by decide) hi).1 hstuck with ⟨_, hpc⟩ | ⟨r, hpc⟩ <;>
    cases hpc

end AntsPool
