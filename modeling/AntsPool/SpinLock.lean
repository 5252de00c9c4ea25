import AntsPool.BusyWaiting
import AntsPool.Progress
import Mathlib.Tactic.IntervalCases

/-!
# The spin lock

`lock()` tests the lock with a `compare_exchange`. After a test that fails it yields, twice
as often each time up to `MAX_BACKOFF`, and tests again. The threads of the pool wait for
the lock in a step that is blocked while it is held; here they spin.
-/
namespace AntsPool
open Interleaving

def maxBackoff : ℕ := 16

/-- The locals of `lock()`; `yields` are left in the inner loop. -/
structure Backoff where
  backoff : ℕ := 1
  yields : ℕ := 0
deriving DecidableEq

namespace Backoff

/-- A failed `compare_exchange`, or a yield. The shift, of a local, is made at once. -/
def turn (w : Backoff) : Backoff :=
  if w.yields = 0 then ⟨if w.backoff < maxBackoff then w.backoff <<< 1 else w.backoff, w.backoff⟩
  else { w with yields := w.yields - 1 }

/-- How many yields follow test number `k`. -/
def pause (k : ℕ) : ℕ := min (2 ^ k) maxBackoff

/-- How many turns go before test number `k`: a failed test and its yields each time. -/
def spent : ℕ → ℕ
  | 0 => 0
  | k + 1 => spent k + (pause k + 1)

/-- The loop before test number `k`, and after `r` turns from there. -/
def phase (k : ℕ) : ℕ → Backoff
  | 0 => ⟨pause k, 0⟩
  | r + 1 => ⟨pause (k + 1), pause k - r⟩

theorem pause_pos (k : ℕ) : 0 < pause k :=
  lt_min (Nat.two_pow_pos k) (by decide)

theorem pause_le (k : ℕ) : pause k ≤ maxBackoff := min_le_right _ _

theorem pause_succ (k : ℕ) :
    (if pause k < maxBackoff then pause k <<< 1 else pause k) = pause (k + 1) := by
  by_cases hk : k < 4
  · interval_cases k <;> rfl
  · have hpow : 2 ^ 4 ≤ 2 ^ k := Nat.pow_le_pow_right two_pos (not_lt.mp hk)
    have hcap : pause k = maxBackoff := min_eq_right hpow
    have hcap' : pause (k + 1) = maxBackoff :=
      min_eq_right (hpow.trans (Nat.pow_le_pow_right two_pos k.le_succ))
    rw [hcap, hcap', if_neg (lt_irrefl _)]

theorem phase_last (k : ℕ) : phase k (pause k + 1) = phase (k + 1) 0 := by
  simp only [phase, Nat.sub_self]

theorem turn_phase {k r : ℕ} (h : r ≤ pause k) : (phase k r).turn = phase k (r + 1) := by
  have hpos := pause_pos k
  cases r with
  | zero => rw [phase, turn, if_pos rfl, pause_succ, phase, Nat.sub_zero]
  | succ r =>
      have hne : pause k - r ≠ 0 := by omega
      simp only [phase, turn, hne, if_false, Nat.sub_sub]

theorem iterate_of_test {k : ℕ} (hk : turn^[spent k] {} = phase k 0) {r : ℕ}
    (h : r ≤ pause k + 1) : turn^[spent k + r] {} = phase k r := by
  induction r with
  | zero => exact hk
  | succ r ih =>
      rw [← add_assoc, Function.iterate_succ_apply', ih (by omega), turn_phase (by omega)]

/-- The turns lead from test to test. -/
theorem iterate_spent (k : ℕ) : turn^[spent k] {} = phase k 0 := by
  induction k with
  | zero => rfl
  | succ k ih => exact (iterate_of_test ih le_rfl).trans (phase_last k)

/-- The yields that are left lead to a test. -/
theorem iterate_yields (b n : ℕ) : turn^[n] ⟨b, n⟩ = ⟨b, 0⟩ := by
  induction n with
  | zero => rfl
  | succ n ih => exact (Function.iterate_succ_apply turn n ⟨b, n + 1⟩).trans ih

theorem phase_yields_le (k r : ℕ) : (phase k r).yields ≤ maxBackoff := by
  cases r with
  | zero => exact Nat.zero_le _
  | succ r => exact (Nat.sub_le _ _).trans (pause_le k)

/-- Every number of turns lies between two tests. -/
theorem exists_phase (n : ℕ) : ∃ k r, r ≤ pause k ∧ n = spent k + r := by
  induction n with
  | zero => exact ⟨0, 0, Nat.zero_le _, rfl⟩
  | succ n ih =>
      obtain ⟨k, r, hr, rfl⟩ := ih
      rcases hr.eq_or_lt with rfl | hlt
      · exact ⟨k + 1, 0, Nat.zero_le _, rfl⟩
      · exact ⟨k, r + 1, hlt, rfl⟩

end Backoff

/-- `lock()` from its first test on. -/
def spinLoop : Loop Backoff := ⟨{}, fun w => w.yields = 0, Backoff.turn⟩

/-- The threads that are in `lock()`. -/
def Thread.atLock : Thread → Bool
  | .submit ⟨_, _, .lock⟩ | .submit ⟨_, _, .woken⟩ | .work ⟨_, _, .revertLock⟩
  | .purge (.refresh _) | .release ⟨_, _, _, .reset⟩ => true
  | _ => false

/-- The pool whose threads spin. -/
def spinningPool (o : Options) : Program PoolCore (Looping Thread Backoff) Call Env :=
  (program o).spinning spinLoop PoolCore.locked Thread.atLock

/-- The new pools, and their guards. -/
abbrev spinningGuard (G : Guard) : Interleaving.Config PoolCore (Looping Thread Backoff) →
    Move → Prop :=
  spinLoop.guard PoolCore.locked Thread.atLock G

namespace Thread

theorem blocked_of_atLock {o : Options} (s : PoolCore) (i : ℕ) (t : Thread) (a : Env)
    (ht : t.atLock = true) (hl : s.locked = true) : (program o).next s i t a = none := by
  cases t with
  | submit t =>
      obtain ⟨p, b, pc⟩ := t
      cases pc with
      | lock | woken => exact Option.map_eq_none_iff.mpr (if_pos hl)
      | _ => cases ht
  | work t =>
      obtain ⟨w, b, pc⟩ := t
      cases pc with
      | revertLock => exact Option.map_eq_none_iff.mpr (if_pos hl)
      | _ => cases ht
  | purge t =>
      cases t with
      | refresh => exact Option.map_eq_none_iff.mpr (if_pos hl)
      | _ => cases ht
  | release t =>
      obtain ⟨m, p, k, pc⟩ := t
      cases pc with
      | reset => exact Option.map_eq_none_iff.mpr (if_pos hl)
      | _ => cases ht
  | _ => cases ht

theorem enters_of_atLock {o : Options} (s : PoolCore) (i : ℕ) (t : Thread) (a : Env)
    (ht : t.atLock = true) (hl : s.locked = false) : ∃ r, (program o).next s i t a = some r := by
  have hfree : ¬ s.locked = true := hl ▸ Bool.false_ne_true
  cases t with
  | submit t =>
      obtain ⟨p, b, pc⟩ := t
      cases pc with
      | lock | woken => exact ⟨_, Option.map_eq_some_iff.mpr ⟨_, if_neg hfree, rfl⟩⟩
      | _ => cases ht
  | work t =>
      obtain ⟨w, b, pc⟩ := t
      cases pc with
      | revertLock =>
          cases hc : s.isClosed with
          | true => exact ⟨_, Option.map_eq_some_iff.mpr ⟨_, (if_neg hfree).trans (if_pos hc), rfl⟩⟩
          | false =>
              have hopen : ¬ s.isClosed = true := hc ▸ Bool.false_ne_true
              exact ⟨_, Option.map_eq_some_iff.mpr ⟨_, (if_neg hfree).trans (if_neg hopen), rfl⟩⟩
      | _ => cases ht
  | purge t =>
      cases t with
      | refresh =>
          refine Option.isSome_iff_exists.mp ?_
          simp only [program, next, Purge.next, if_neg hfree, Option.isSome_map]
          split <;> rfl
      | _ => cases ht
  | release t =>
      obtain ⟨m, p, k, pc⟩ := t
      cases pc with
      | reset => exact ⟨_, Option.map_eq_some_iff.mpr ⟨_, if_neg hfree, rfl⟩⟩
      | _ => cases ht
  | _ => cases ht

/-- Who holds the lock is not in `lock()`. -/
theorem atLock_of_holdsLock {t : Thread} (h : t.holdsLock = true) : t.atLock = false := by
  cases t with
  | submit t =>
      obtain ⟨p, b, pc⟩ := t
      cases pc <;> first | rfl | cases h
  | work t =>
      obtain ⟨w, b, pc⟩ := t
      cases pc <;> first | rfl | cases h
  | _ => cases h

end Thread

/-- A pool whose threads spin for the lock shows the reachable states of the pool and no
others, under any guard: the locals of `lock()` and the failed tests do not show. -/
theorem spinning_pool_shows_pool {o : Options} {G : Guard} {x : Config} :
    Run o G x ↔ ∃ y, (spinningPool o).Reach (spinLoop.Starts (Starts o)) (spinningGuard G) y ∧
      y.map Looping.thread = x :=
  Program.reach_iff_spinning rfl Thread.blocked_of_atLock

/-- What `lock()` does in every run of the spinning pool. Its tests come after 0, 2, 5, 10,
19, 36 turns and so on; while the lock is held there is one holder, which does not spin and
can go on; and once it is free, a thread left alone gets it after `MAX_BACKOFF` yields at
most. -/
theorem lock_spins {o : Options} {h : List (Event PoolCore (Looping Thread Backoff) Call Env)}
    {y : Interleaving.Config PoolCore (Looping Thread Backoff)}
    (hy : (spinningPool o).Trace (spinLoop.Starts (Starts o)) (spinningGuard anyMove) h y) {i : ℕ}
    {u : Looping Thread Backoff} (hi : y.threads[i]? = some u) (hu : u.thread.atLock = true) :
    (∃ k r, r ≤ Backoff.pause k ∧
      Program.turnsOf spinLoop PoolCore.locked Thread.atLock i h = Backoff.spent k + r ∧
      (spinLoop.tests u.loop = true ↔ r = 0)) ∧
    (y.shared.locked = true → ∃ j v, y.threads[j]? = some v ∧ v.thread.holdsLock = true ∧
      (∀ l w, y.threads[l]? = some w → w.thread.holdsLock = true → l = j) ∧
      ∀ a, ∃ r, (program o).next y.shared j v.thread a = some r ∧
        (spinningPool o).next y.shared j v a =
          some (r.1, spinLoop.fresh r.2.1, r.2.2.map spinLoop.fresh)) ∧
    (y.shared.locked = false → ∀ a, ∃ n ≤ maxBackoff, ∃ z r,
      (spinningPool o).run (fun _ _ => True) y (List.replicate (n + 1) (.step i a)) = some z ∧
      (program o).next y.shared i u.thread a = some r ∧
      z.map Looping.thread = (y.map Looping.thread).after i r) := by
  have hloop := Program.Trace.loop_eq hy hi
  obtain ⟨k, r, hr, hturns⟩ :=
    Backoff.exists_phase (Program.turnsOf spinLoop PoolCore.locked Thread.atLock i h)
  have hphase : u.loop = Backoff.phase k r := by
    rw [hloop, hturns]
    exact Backoff.iterate_of_test (Backoff.iterate_spent k) (by omega)
  refine ⟨⟨k, r, hr, hturns, ?_⟩, fun hl => ?_, fun hl a => ?_⟩
  · rw [hphase]
    cases r with
    | zero => exact iff_of_true rfl rfl
    | succ r =>
        refine iff_of_false (fun hyields => ?_) r.succ_ne_zero
        have hzero : Backoff.pause k - r = 0 := of_decide_eq_true hyields
        omega
  · have hrun : Run o anyMove (y.map Looping.thread) := hy.reach.erase
    obtain ⟨j, t, hj, hold⟩ := hrun.exists_holder hl
    rw [Config.map, List.getElem?_map] at hj
    obtain ⟨v, hv, rfl⟩ := Option.map_eq_some_iff.mp hj
    have hmap : ∀ (l : ℕ) w, y.threads[l]? = some w →
        (y.map Looping.thread).threads[l]? = some w.thread := by
      intro l w hw
      rw [Config.map, List.getElem?_map, hw, Option.map_some]
    refine ⟨j, v, hv, hold, fun l w hw hw' =>
      hrun.holder_unique (hmap l w hw) (hmap j v hv) hw' hold, fun a => ?_⟩
    obtain ⟨q, hq⟩ := Thread.not_stuck_of_holdsLock (o := o) (s := y.shared) (i := j) hold a
    have hturn : spinLoop.turns PoolCore.locked Thread.atLock y.shared v = false := by
      rw [Loop.turns, Thread.atLock_of_holdsLock hold, Bool.false_and]
    exact ⟨q, hq, Program.spinning_next hturn hq⟩
  · obtain ⟨q, hq⟩ := Thread.enters_of_atLock (o := o) y.shared i u.thread a hu hl
    have htest : spinLoop.tests (Backoff.turn^[u.loop.yields] u.loop) = true := by
      rw [Backoff.iterate_yields]
      rfl
    obtain ⟨m, hm, z, hz, hmap⟩ := Program.run_of_free hi hl hq htest
    exact ⟨m, hm.trans (hphase ▸ Backoff.phase_yields_le k r), z, q, hz, hq, hmap⟩

def spinningCaller : Looping Thread Backoff :=
  ⟨.submit { payload := ⟨3, false⟩, pc := .lock }, ⟨4, 1⟩⟩

/-- A caller of a small pool has failed twice to get the lock and yields, when the first
caller releases it. -/
theorem lock_spins_small :
    ∃ h y, (spinningPool smallOptions).Trace (spinLoop.Starts (Starts smallOptions))
        (spinningGuard anyMove) h y ∧ y.shared.locked = false ∧
      Program.turnsOf spinLoop PoolCore.locked Thread.atLock 3 h = 4 ∧
      ∃ n ≤ maxBackoff, ∃ z, (spinningPool smallOptions).run (fun _ _ => True) y
        (List.replicate (n + 1) (.step 3 .ok)) = some z := by
  obtain ⟨h, y, hy, hφ⟩ := Program.Trace.exists_of_trace (P := spinningPool smallOptions)
    (I := spinLoop.Starts (Starts smallOptions)) (G := spinningGuard anyMove)
    (x := smallPool.map spinLoop.fresh)
    (m := .call (.submit false) :: steps 2 2 ++ .call (.submit false) :: steps 3 5 ++ steps 2 4)
    (φ := fun h y => decide (y.shared.locked = false ∧
      Program.turnsOf spinLoop PoolCore.locked Thread.atLock 3 h = 4 ∧
      y.threads[3]? = some spinningCaller))
    ⟨smallPool, smallPool_starts, rfl⟩ (by decide)
  obtain ⟨hl, hturns, hi⟩ := of_decide_eq_true hφ
  obtain ⟨n, hn, z, _, hz, _⟩ := (lock_spins hy hi rfl).2.2 hl .ok
  exact ⟨h, y, hy, hl, hturns, n, hn, z, hz⟩

end AntsPool
