import AntsPool.Epilogue
import AntsPool.Progress

/-!
# Pools on which no caller waits

An unlimited pool has room for every caller, and a nonblocking one refuses those that
it has no room for. In both a submit is through after seven steps of its own, and the
only thing that can hold it up meanwhile is the spin lock; so a task may submit to the
pool that it runs on.
-/
namespace AntsPool
open Interleaving

/-- The pool is nonblocking or has no capacity. -/
def unblocking (o : Options) (s : PoolCore) : Prop := o.nonblocking = true ∨ s.capacity = -1

/-- Not on the way into `Cond::wait` or out of it, and in an unlimited pool not about to
compare its capacity either. -/
def SubmitPc.direct (unlimited : Bool) : SubmitPc → Bool
  | .park | .parked _ | .woken | .recheck => false
  | .readRunning _ => !unlimited
  | .err e => !(unlimited && e == .poolOverload)
  | _ => true

def Thread.direct (unlimited : Bool) : Thread → Bool
  | .submit t => t.pc.direct unlimited
  | _ => true

/-- How many steps a caller that does not wait still has, at most. -/
def Submit.ahead (t : Submit) : ℤ :=
  match t.pc with
  | .checkClosed => 7
  | .lock => 6
  | .readCap => 5
  | .readRunning _ => 4
  | .spawn => 3
  | .run _ => 2
  | .input _ => 1
  | _ => 0

namespace Run
variable {o : Options} {G : Guard} {x : Config}

/-- A step of a run neither makes a pool unlimited nor limits one that is. -/
theorem capacity_step (h : Run o G x) {i : ℕ} {t t' : Thread} {s' : PoolCore} {new : List Thread}
    (ht : x.threads[i]? = some t) (hs : Thread.Step o i x.shared t s' t' new) :
    s'.capacity = -1 ↔ x.shared.capacity = -1 := by
  rcases hs.capacity_cases with ⟨size, c, rfl, hc, _⟩ | ⟨hc, _⟩
  · obtain ⟨hsize, hall⟩ := h.bounded.2 i _ ht
    have hpos := hall _ h.bounded.1.current_mem
    omega
  · rw [hc]

end Run

/-- No step leads a caller into a wait. -/
theorem Thread.Step.direct {o : Options} {i : ℕ} {s s' : PoolCore} {t t' : Thread}
    {new : List Thread} (h : Thread.Step o i s t s' t' new) (hu : unblocking o s)
    (ht : t.direct (s.capacity = -1) = true) : t'.direct (s.capacity = -1) = true := by
  cases h with
  | submit h =>
      cases h with
      | bounded hc => simp [Thread.direct, SubmitPc.direct, hc]
      | overload => simpa [Thread.direct, SubmitPc.direct] using ht
      | enlist _ ho =>
          simp only [Submit.overloaded, Bool.or_eq_false_iff] at ho
          rcases hu with hn | hc
          · cases hn.symm.trans ho.1
          · simp [Thread.direct, SubmitPc.direct, hc] at ht
      | closed | recheckClosed => simp [Thread.direct, SubmitPc.direct]
      | parkLeaves | parkBlocks | leave | woken | recheckSome | recheckNone => cases ht
      | _ => rfl
  | _ => rfl

/-- A step of a caller brings it nearer to its return. -/
theorem Submit.Step.ahead {o : Options} {s s' : PoolCore} {t t' : Submit} {new : List Thread}
    (h : Submit.Step o s t s' t' new) {b : Bool} (ht : t.pc.direct b = true) :
    t'.ahead + 1 ≤ t.ahead := by
  cases h with
  | parkLeaves | parkBlocks | leave | woken | recheckClosed | recheckSome | recheckNone => cases ht
  | _ => simp [Submit.ahead]

/-- A caller that does not wait can only be held up by the lock. -/
theorem Submit.blocked_of_direct {o : Options} {s : PoolCore} {t : Submit} {b : Bool}
    (ht : t.pc.direct b = true) (hn : t.next o s = none) :
    (s.locked = true ∧ t.pc = .lock) ∨ (∃ w, t.pc = .ok w) ∨ ∃ e, t.pc = .err e := by
  obtain ⟨p, w, pc⟩ := t
  cases pc with
  | lock =>
      simp only [next] at hn
      split_ifs at hn with hl
      exact .inl ⟨hl, rfl⟩
  | ok w => exact .inr (.inl ⟨w, rfl⟩)
  | err e => exact .inr (.inr ⟨e, rfl⟩)
  | readRunning c =>
      simp only [next] at hn
      split_ifs at hn
  | park | parked | woken | recheck => cases ht
  | checkClosed | readCap | spawn | run | input => cases hn

theorem Submit.ahead_nonneg (t : Submit) : 0 ≤ t.ahead := by
  unfold ahead
  split <;> decide

namespace Run
variable {o : Options} {G : Guard} {x : Config}

theorem direct (h : Run o G x) (hu : unblocking o x.shared) {i : ℕ} {t : Thread}
    (ht : x.threads[i]? = some t) : t.direct (x.shared.capacity = -1) = true := by
  refine (Run.invariant_newborn (J := fun _ => True)
    (φ := fun s _ t => unblocking o s → t.direct (s.capacity = -1) = true)
    (fun _ _ => trivial) ?_ ?_ ?_ h).2 i t ht hu
  · rintro s j u ((rfl | rfl | rfl) | ⟨w, rfl⟩) _ <;> rfl
  · intro y c _ _ _ _
    cases c <;> rfl
  · intro y j a u s' u' new hy _ hall _ hj hs
    have hcap := hy.capacity_step hj hs
    have hback : unblocking o s' → unblocking o y.shared := Or.imp_right hcap.mp
    simp only [hcap]
    exact ⟨trivial, fun hu' => hs.direct (hback hu') (hall j u hj (hback hu')),
      fun k v _ hk hu' => hall k v hk (hback hu')⟩

/-- Nobody waits on a pool on which no caller can. -/
theorem none_waits (h : Run o G x) (hu : unblocking o x.shared) :
    x.shared.waiting = 0 ∧ x.shared.cond.parked = 0 := by
  have hnone : ∀ p : Thread → Bool, (∀ t b, t.direct b = true → p t = false) →
      x.threads.countP p = 0 := by
    intro p hp
    refine List.countP_eq_zero.mpr fun t ht => ?_
    obtain ⟨i, hi⟩ := List.mem_iff_getElem?.mp ht
    simp [hp t _ (h.direct hu hi)]
  constructor
  · rw [h.waiting_eq, hnone _ fun t b ht => ?_, Nat.cast_zero]
    cases t with
    | submit t =>
        obtain ⟨p, w, pc⟩ := t
        cases pc <;> first | rfl | cases ht
    | _ => rfl
  · have hparked := h.parked_eq
    rw [hnone _ fun t b ht => ?_] at hparked
    · exact_mod_cast hparked
    · cases t with
      | submit t =>
          obtain ⟨p, w, pc⟩ := t
          cases pc <;> first | rfl | cases ht
      | _ => rfl

end Run

/-- The runs of a pool that starts out without a place to wait in. -/
def StartsUnblocking (o : Options) (x : Config) : Prop := Starts o x ∧ unblocking o x.shared

theorem unblocking_of_reach {o : Options} {x : Config}
    (hx : (program o).Reach (StartsUnblocking o) anyMove x) :
    Run o anyMove x ∧ unblocking o x.shared := by
  have hrun : ∀ y, (program o).Reach (StartsUnblocking o) anyMove y → Run o anyMove y :=
    fun y hy => hy.mono fun z hz => hz.1
  refine ⟨hrun x hx, ?_⟩
  refine Program.Reach.invariant (fun y hy => hy.2) ?_ ?_ hx
  · exact fun y c _ hu _ => hu
  · intro y i a t r hy hu _ ht hn
    exact hu.imp_right ((hrun y hy).capacity_step ht (program_step hn)).mpr

/-- The steps that a caller has made and those that it still has. -/
theorem caller_steps_le {o : Options} {h : List PoolEvent} {x : Config}
    (hx : (program o).Trace (StartsUnblocking o) anyMove h x) {i : ℕ} {t : Submit}
    (ht : x.threads[i]? = some (.submit t)) : made (fun _ => true) i h + t.ahead ≤ 7 := by
  refine Program.Trace.tally_inv
    (φ := fun t n => ∀ u, t = .submit u → n + u.ahead ≤ 7) ?_ ?_ ?_ ?_ hx ht t rfl
  · rintro y hy u hu v rfl
    rcases hy.1.fresh.threads _ hu with hb | hb | hb <;> cases hb
  · intro j c u hu
    cases c <;> cases hu
    simp [Submit.ahead]
  · rintro s j u a r hn _ hv w rfl
    rcases (program_step hn).new_cases hv with ⟨w, hw⟩ | hw | hw <;> cases hw
  · rintro y j a u ⟨s', u', new⟩ n hy hu hn hle v rfl
    obtain ⟨hrun, hub⟩ := unblocking_of_reach hy
    have hs := program_step hn
    cases hs with
    | submit hs =>
        have hstep := hs.ahead (hrun.direct hub hu)
        have hbefore := hle _ rfl
        simp only [if_true]
        omega

/-- No caller ever waits on a pool that was made nonblocking or without a capacity, and
each is through after seven steps. What can hold it up is the spin lock alone, and an
unlimited pool does not report an overload. -/
theorem unblocking_pool_never_waits {o : Options} {h : List PoolEvent} {x : Config}
    (hx : (program o).Trace (StartsUnblocking o) anyMove h x) :
    x.shared.waiting = 0 ∧ x.shared.cond.parked = 0 ∧
    ∀ (i : ℕ) (t : Submit), x.threads[i]? = some (.submit t) →
      made (fun _ => true) i h ≤ 7 ∧
      ((Thread.submit t).stuck o x.shared i →
        (x.shared.locked = true ∧ t.pc = .lock) ∨ (∃ w, t.pc = .ok w) ∨ ∃ e, t.pc = .err e) ∧
      (x.shared.capacity = -1 → t.pc ≠ .err .poolOverload) := by
  obtain ⟨hrun, hub⟩ := unblocking_of_reach hx.reach
  obtain ⟨hwaiting, hparked⟩ := hrun.none_waits hub
  refine ⟨hwaiting, hparked, fun i t ht => ?_⟩
  have hdirect := hrun.direct hub ht
  refine ⟨?_, fun hstuck => ?_, fun hcap hpc => ?_⟩
  · have hle := caller_steps_le hx ht
    have hahead := t.ahead_nonneg
    omega
  · exact Submit.blocked_of_direct hdirect hstuck.submit
  · simp [Thread.direct, SubmitPc.direct, hpc, hcap] at hdirect

/-- A second task finds the one worker of a nonblocking pool busy and is refused. -/
def nonblockingOptions : Options := { disablePurge := true, nonblocking := true }

def nonblockingPool : Config := (((PoolCore.new 1 nonblockingOptions 0).get rfl).toOption.get rfl).2

theorem unblocking_pool_never_waits_small :
    ∃ h x, (program nonblockingOptions).Trace (StartsUnblocking nonblockingOptions) anyMove h x ∧
      x.threads[4]? = some (.submit ⟨⟨4, false⟩, false, .err .poolOverload⟩) ∧
      x.shared.waiting = 0 := by
  have hstarts : StartsUnblocking nonblockingOptions nonblockingPool :=
    ⟨⟨1, nonblockingOptions, 0, rfl⟩, .inl rfl⟩
  obtain ⟨h, x, hx, hφ⟩ := Program.Trace.exists_of_trace (P := program nonblockingOptions)
    (G := anyMove)
    (m := .call (.submit false) :: steps 2 7 ++ .call (.submit false) :: steps 4 4)
    (φ := fun _ x => x.threads[4]? = some (.submit ⟨⟨4, false⟩, false, .err .poolOverload⟩))
    hstarts (by decide)
  exact ⟨h, x, hx, by simpa using hφ, (unblocking_pool_never_waits hx).1⟩

end AntsPool
