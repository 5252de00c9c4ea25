import AntsPool.Lifecycle
import AntsPool.Notification

/-!
# No lost wake-up on an open pool

The tests that send a caller to wait, and the one that decides whether a `tune`
signals, are made on readings that other threads may overtake. The condition is
put on the two steps that act on such a reading: what they leave unserved has to be
within the notifications that are still to come.
-/
namespace AntsPool
open Interleaving ListTotals

/-- No broadcast returns the generation to that of a caller still blocked. -/
def noWrap (x : Config) : Move → Prop
  | .step i _ => (x.threads[i]?.any Thread.broadcasting) = true →
      ∀ u ∈ x.threads, u.parkedAt ≠ some x.shared.cond.nextGeneration
  | .call _ => True

instance (x : Config) : (m : Move) → Decidable (noWrap x m)
  | .step i _ => inferInstanceAs (Decidable ((x.threads[i]?.any Thread.broadcasting) = true →
      ∀ u ∈ x.threads, u.parkedAt ≠ some x.shared.cond.nextGeneration))
  | .call _ => inferInstanceAs (Decidable True)

/-- No blocked caller is of the current generation. -/
def noneCurrent (c : Cond) (threads : List Thread) : Prop :=
  ∀ u ∈ threads, u.parkedAt ≠ some c.generation

namespace Run
variable {o : Options} {G : Guard} {x : Config}

/-- A broadcast outdates every blocked caller. -/
theorem noneCurrent_broadcast (h : Run o G x)
    (hwrap : ∀ u ∈ x.threads, u.parkedAt ≠ some x.shared.cond.nextGeneration) :
    noneCurrent x.shared.cond.broadcast x.threads := by
  intro u hu
  unfold Cond.broadcast
  split_ifs with hpos
  · exact hwrap u hu
  · intro hpark
    exact hpos (h.parked_pos hu (Thread.parks_of_parkedAt hpark))

/-- A caller looks for room only when it has found the queue empty. -/
theorem queue_empty_of_caller (h : Run o G x) (i : ℕ) (t : Thread) (ht : x.threads[i]? = some t) :
    ∀ u, t = .submit u → u.pc.searched = true → x.shared.workers.items = [] := by
  refine (Run.invariant_newborn (J := fun _ => True) (φ := fun s _ t =>
    ∀ u, t = .submit u → u.pc.searched = true → s.workers.items = [])
    (fun _ _ => trivial) ?_ ?_ ?_ h).2 i t ht
  · intro s i t hb u hu
    rcases hb with (rfl | rfl | rfl) | ⟨w, rfl⟩ <;> cases hu
  · intro y c _ _ _ u hu
    cases c <;> cases hu
    exact nofun
  · intro y k a v s' v' new hr _ hv _ hk hs
    refine ⟨trivial, ?_, fun j u hj hu w hw hsearch => ?_⟩
    · rintro u rfl hsearch
      cases hs with
      | submit hs =>
          cases hs with
          | detachNone _ hd | recheckNone _ hd => exact (WorkerQueue.detach_none hd).2
          | unlimited | bounded | room | enlist | spawnCached | spawnNew =>
              exact hv k _ hk _ rfl rfl
          | _ => cases hsearch
    · subst hw
      have hnil := hv j _ hu w rfl hsearch
      rcases hs.queueStep.items with hsub | hhold
      · exact List.eq_nil_of_subset_nil (hnil ▸ hsub)
      · exact (hj (hr.holder_unique hu hk (SubmitPc.holdsLock_of_searched hsearch) hhold)).elim

end Run

/-- The notifications that are still to reach somebody: tokens and signals to come. -/
def signals (x : Config) : ℤ := x.shared.cond.tokens + x.threads.countP Thread.signalling

/-- The callers that have been notified or will be, until they look for a worker. -/
def notified (x : Config) : ℤ := x.shared.cond.tokens + x.threads.countP Thread.pending

/-- No unit is left to a blocked caller that nobody is going to notify. -/
def answered (x : Config) : Prop :=
  noneCurrent x.shared.cond x.threads ∨ x.shared.cond.parked ≤ signals x ∨
    .tune .broadcast ∈ x.threads ∨ x.shared.units ≤ notified x

/-- About to register, after a test that found no room. -/
def Thread.registering : Thread → Bool
  | .submit ⟨_, _, .park⟩ => true
  | _ => false

/-- The size a `tune` is about to store and the capacity it has read. -/
def Thread.storing : Thread → Option (ℤ × ℤ)
  | .tune (.store size capacity) => some (size, capacity)
  | _ => none

/-- What the two unprotected steps must leave to a notification: a caller that
registers after its test, and a `tune` that stores after its reading. -/
def leavesServed (x : Config) (t : Thread) : Prop :=
  (t.registering = true → x.shared.cond.parked + 1 ≤ signals x ∨ .tune .broadcast ∈ x.threads ∨
    x.shared.units + t.hope ≤ notified x ∨
    0 < x.shared.cond.tokens ∧ noneCurrent x.shared.cond x.threads) ∧
  ∀ r ∈ t.storing, r.2 + 1 < r.1 ∨ noneCurrent x.shared.cond x.threads ∨
    x.shared.cond.parked ≤ signals x + (if r.1 = r.2 + 1 then 1 else 0) ∨
    .tune .broadcast ∈ x.threads ∨
    x.shared.workers.items.length + max 0 (r.1 - x.shared.running) ≤
      notified x + (if r.1 = r.2 + 1 then 1 else 0)

section Step
variable {o : Options} {x : Config} {i : ℕ} {t t' : Thread} {s' : PoolCore} {new : List Thread}

theorem noneCurrent.after (h : noneCurrent x.shared.cond x.threads)
    (hs : Thread.Step o i x.shared t s' t' new) (hp : t'.parkedAt = none)
    (hg : s'.cond.generation = x.shared.cond.generation) :
    noneCurrent s'.cond (x.after i (s', t', new)).threads := by
  intro u hu
  rw [hg]
  rcases Config.mem_after hu with hu | rfl | hu
  · exact h u hu
  · rw [hp]
    exact nofun
  · rcases hs.new_cases hu with ⟨w, rfl⟩ | rfl | rfl <;> exact nofun

theorem signals_after (ht : x.threads[i]? = some t) (hs : Thread.Step o i x.shared t s' t' new) :
    signals (x.after i (s', t', new)) + x.shared.cond.tokens + t.hint =
      signals x + s'.cond.tokens + t'.hint := by
  have hcount := Config.countP_after Thread.signalling ht (r := (s', t', new)) fun u hu => by
    rcases hs.new_cases hu with ⟨w, rfl⟩ | rfl | rfl <;> rfl
  change _ + t.hint = _ + t'.hint at hcount
  change (s'.cond.tokens : ℤ) + _ + _ + _ = _
  unfold signals
  omega

theorem notified_after (ht : x.threads[i]? = some t) (hs : Thread.Step o i x.shared t s' t' new) :
    notified (x.after i (s', t', new)) + x.shared.cond.tokens + t.hope =
      notified x + s'.cond.tokens + t'.hope := by
  have hcount := Config.countP_after Thread.pending ht (r := (s', t', new)) fun u hu => by
    rcases hs.new_cases hu with ⟨w, rfl⟩ | rfl | rfl <;> rfl
  change _ + t.hope = _ + t'.hope at hcount
  change (s'.cond.tokens : ℤ) + _ + _ + _ = _
  unfold notified
  omega

theorem tokens_le_signals (x : Config) : (x.shared.cond.tokens : ℤ) ≤ signals x := by
  unfold signals
  omega

theorem tokens_le_notified (x : Config) : (x.shared.cond.tokens : ℤ) ≤ notified x := by
  unfold notified
  omega

/-- A step that blocks nobody keeps the callers answered when neither the tokens nor the
units get worse, counting what the thread itself still owes. -/
theorem answered.after (h : answered x) (ht : x.threads[i]? = some t)
    (hs : Thread.Step o i x.shared t s' t' new) (hp : t'.parkedAt = none)
    (hb : t ≠ .tune .broadcast) (hg : s'.cond.generation = x.shared.cond.generation)
    (hparked : s'.cond.parked ≤ s'.cond.tokens ∨
      (s'.cond.parked : ℤ) + x.shared.cond.tokens + t.hint ≤
        x.shared.cond.parked + s'.cond.tokens + t'.hint)
    (hunits : s'.cond.parked ≤ s'.cond.tokens ∨ s'.units ≤ 0 ∨
      s'.units + x.shared.cond.tokens + t.hope ≤
        x.shared.units + s'.cond.tokens + t'.hope) :
    answered (x.after i (s', t', new)) := by
  have hsig := signals_after ht hs
  have hnot := notified_after ht hs
  have hsig0 := tokens_le_signals (x.after i (s', t', new))
  have hnot0 := tokens_le_notified (x.after i (s', t', new))
  simp only [answered]
  change _ ∨ (s'.cond.parked : ℤ) ≤ _ ∨ _ ∨ s'.units ≤ _
  change (s'.cond.tokens : ℤ) ≤ _ at hsig0 hnot0
  rcases h with h | h | h | h
  · exact .inl (h.after hs hp hg)
  · right; left
    rcases hparked with hparked | hparked <;> omega
  · exact .inr (.inr (.inl (Config.mem_after_of_ne ht h hb _)))
  · rcases hunits with hunits | hunits | hunits
    · right; left; omega
    · right; right; right; omega
    · right; right; right; omega

/-- A signal makes up for one unit, or for its own absence. -/
theorem answered.signalled (h : answered x) (ht : x.threads[i]? = some t)
    (hs : Thread.Step o i x.shared t s' t' new) (hp : t'.parkedAt = none)
    (hb : t ≠ .tune .broadcast) (hc : s'.cond = x.shared.cond.signal)
    (hhint : t.hint ≤ t'.hint + 1) (hunits : s'.units + t.hope ≤ x.shared.units + t'.hope + 1) :
    answered (x.after i (s', t', new)) := by
  refine h.after ht hs hp hb (by rw [hc, Cond.signal_generation]) ?_ ?_
  all_goals
    rw [hc, Cond.signal_parked]
    rcases x.shared.cond.signal_tokens with ⟨_, hn⟩ | ⟨hfull, hn⟩
  · right
    omega
  · left
    omega
  · right; right
    omega
  · left
    omega

/-- A `tune` that leaves the others served. -/
theorem answered_of_store {size c : ℤ} (ht : x.threads[i]? = some (.tune (.store size c)))
    (hs : Thread.Step o i x.shared (.tune (.store size c)) s' t' new)
    (hserved : leavesServed x (.tune (.store size c))) (hc : s'.cond = x.shared.cond)
    (hu : s'.units = x.shared.workers.items.length + max 0 (size - x.shared.running))
    (ht' : size ≤ c ∧ t' = .tune .returned ∨ size = c + 1 ∧ t' = .tune .signal ∨
      c + 1 < size ∧ t' = .tune .broadcast) : answered (x.after i (s', t', new)) := by
  have hgen : s'.cond.generation = x.shared.cond.generation := by rw [hc]
  have hsig := signals_after ht hs
  have hnot := notified_after ht hs
  rw [hc] at hsig hnot
  have hhint : (Thread.tune (.store size c)).hint = 0 := rfl
  have hhope : (Thread.tune (.store size c)).hope = 0 := rfl
  have hnext : t'.hint = t'.hope ∧ t'.parkedAt = none ∧
      (t' = .tune .broadcast ∨ ¬c + 1 < size ∧ t'.hope = if size = c + 1 then 1 else 0) := by
    rcases ht' with ⟨hle, rfl⟩ | ⟨rfl, rfl⟩ | ⟨hlt, rfl⟩
    · exact ⟨rfl, rfl, .inr ⟨by omega, by rw [if_neg (by omega)]; rfl⟩⟩
    · exact ⟨rfl, rfl, .inr ⟨by omega, by rw [if_pos rfl]; rfl⟩⟩
    · exact ⟨rfl, rfl, .inl rfl⟩
  obtain ⟨heq, hp, hnext⟩ := hnext
  unfold answered
  change noneCurrent s'.cond _ ∨ (s'.cond.parked : ℤ) ≤ _ ∨ _ ∨ s'.units ≤ _
  rcases hnext with rfl | ⟨hlt, hone⟩
  · right; right; left
    exact List.mem_of_getElem? (Config.getElem?_after_self ht)
  · rcases hserved.2 _ rfl with h | h | h | h | h
    · exact absurd h hlt
    · exact .inl (h.after hs hp hgen)
    · right; left
      rw [hc]
      omega
    · exact .inr (.inr (.inl (Config.mem_after_of_ne ht h nofun _)))
    · right; right; right
      omega

/-- A caller that registers and leaves the others served, whether it finds a token or blocks. -/
theorem answered_of_park {p : Payload} {b : Bool}
    (ht : x.threads[i]? = some (.submit ⟨p, b, .park⟩))
    (hs : Thread.Step o i x.shared (.submit ⟨p, b, .park⟩) s' t' new)
    (hserved : leavesServed x (.submit ⟨p, b, .park⟩))
    (hs' : (∃ c, x.shared.cond.register.poll x.shared.cond.generation = some c ∧
        s' = { x.shared with cond := c, locked := false } ∧ t' = .submit ⟨p, true, .woken⟩) ∨
      (x.shared.cond.tokens = 0 ∧
        s' = { x.shared with cond := x.shared.cond.register, locked := false } ∧
        t' = .submit ⟨p, true, .parked x.shared.cond.generation⟩)) :
    answered (x.after i (s', t', new)) := by
  have hsig := signals_after ht hs
  have hnot := notified_after ht hs
  unfold answered
  rcases hs' with ⟨c, hpoll, rfl, rfl⟩ | ⟨hzero, rfl, rfl⟩
  · obtain ⟨hgen, hpark, htok⟩ := Cond.poll_some hpoll
    have htok : 0 < x.shared.cond.tokens ∧ c.tokens = x.shared.cond.tokens - 1 :=
      htok.resolve_right fun h => h.2.2 rfl
    have hpark : c.parked = x.shared.cond.parked := hpark
    change _ + _ + 0 = _ + (c.tokens : ℤ) + 0 at hsig
    change _ + _ + _ = _ + (c.tokens : ℤ) + 1 at hnot
    change _ ∨ (c.parked : ℤ) ≤ _ ∨ _ ∨ x.shared.units ≤ _
    rcases hserved.1 rfl with h | h | h | h
    · right; left
      omega
    · exact .inr (.inr (.inl (Config.mem_after_of_ne ht h nofun _)))
    · right; right; right
      omega
    · exact .inl (h.2.after hs rfl hgen)
  · change _ + _ + 0 = _ + (x.shared.cond.tokens : ℤ) + 0 at hsig
    change _ + _ + _ = _ + (x.shared.cond.tokens : ℤ) + 0 at hnot
    change _ ∨ ((x.shared.cond.parked + 1 : ℕ) : ℤ) ≤ _ ∨ _ ∨ x.shared.units ≤ _
    rcases hserved.1 rfl with h | h | h | h
    · right; left
      omega
    · exact .inr (.inr (.inl (Config.mem_after_of_ne ht h nofun _)))
    · right; right; right
      omega
    · omega

end Step

/-- Submits and tunes only. -/
def openCalls : Move → Prop
  | .call (.submit _) | .call (.tune _) | .step _ _ => True
  | .call _ => False

instance : (m : Move) → Decidable (openCalls m)
  | .call (.submit _) | .call (.tune _) | .step _ _ => inferInstanceAs (Decidable True)
  | .call .release | .call (.releaseContext _) | .call .reboot => inferInstanceAs (Decidable False)

/-- Whoever registers or stores leaves the others served. -/
def allServed (x : Config) : Move → Prop
  | .step i _ => ∀ t ∈ x.threads[i]?, leavesServed x t
  | .call _ => True

/-- Submits and tunes whose readings are not overtaken unnoticed. -/
def wakeable (x : Config) (m : Move) : Prop := openCalls m ∧ noWrap x m ∧ allServed x m

instance (c : Cond) (l : List Thread) : Decidable (noneCurrent c l) :=
  inferInstanceAs (Decidable (∀ u ∈ l, u.parkedAt ≠ some c.generation))

instance (x : Config) (t : Thread) : Decidable (leavesServed x t) :=
  inferInstanceAs (Decidable (_ ∧ _))

instance (x : Config) : (m : Move) → Decidable (allServed x m)
  | .step i _ => inferInstanceAs (Decidable (∀ t ∈ x.threads[i]?, leavesServed x t))
  | .call _ => inferInstanceAs (Decidable True)

instance (x : Config) (m : Move) : Decidable (wakeable x m) :=
  inferInstanceAs (Decidable (openCalls m ∧ noWrap x m ∧ allServed x m))

namespace Run
variable {o : Options} {G : Guard} {x : Config}

/-- A pool that nobody releases stays open. -/
theorem opened (hG : ∀ x m, G x m → openCalls m) (h : Run o G x) : x.shared.state = .opened := by
  refine (Run.invariant_newborn (J := fun s => s.state = .opened)
    (φ := fun _ _ t => t.lifecycle = false) (fun _ hy => hy.state) ?_ ?_ ?_ h).1
  · intro s i t hb
    rcases hb with (rfl | rfl | rfl) | ⟨w, rfl⟩ <;> rfl
  · intro y c _ _ hg
    cases c with
    | submit | tune => rfl
    | release | releaseContext | reboot => exact (hG _ _ hg).elim
  · intro y i a t s' t' new _ ho hall _ ht hs
    have hlife := hall i t ht
    refine ⟨?_, ?_, fun j u _ hu => hall j u hu⟩
    · cases hs.stateStep with
      | close _ _ _ hl => cases hlife.symm.trans hl
      | reopen _ hopen => exact hopen
      | same hsame => exact hsame.trans ho
    · cases hl : t'.lifecycle with
      | false => rfl
      | true => cases hlife.symm.trans (hs.lifecycle hl)

/-- No blocked caller is current after a step that broadcasts. -/
theorem noneCurrent_after (h : Run o G x) {i : ℕ} {t t' : Thread} {new : List Thread}
    (hs : Thread.Step o i x.shared t { x.shared with cond := x.shared.cond.broadcast } t' new)
    (hwrap : ∀ u ∈ x.threads, u.parkedAt ≠ some x.shared.cond.nextGeneration)
    (hp : t'.parkedAt = none) :
    noneCurrent x.shared.cond.broadcast
      (x.after i ({ x.shared with cond := x.shared.cond.broadcast }, t', new)).threads := by
  intro u hu
  rcases Config.mem_after hu with hu | rfl | hu
  · exact h.noneCurrent_broadcast hwrap u hu
  · rw [hp]
    exact nofun
  · rcases hs.new_cases hu with ⟨w, rfl⟩ | rfl | rfl <;> exact nofun

/-- Every step of a wakeable run keeps the blocked callers answered. -/
theorem answered_step (h : Run o wakeable x) (hcov : answered x) {i : ℕ} {a : Env} {t t' : Thread}
    {s' : PoolCore} {new : List Thread} (hg : wakeable x (.step i a))
    (ht : x.threads[i]? = some t) (hs : Thread.Step o i x.shared t s' t' new) :
    answered (x.after i (s', t', new)) := by
  have hserved : leavesServed x t := hg.2.2 t ht
  have hopen := h.opened fun _ _ hm => hm.1
  cases hs.condStep with
  | quiet hc hp hsig hb hf hu =>
      refine hcov.after ht hs hp hb (by rw [hc]) (.inr ?_) (.inr ?_)
      · have hhint : t.hint ≤ t'.hint := by
          unfold Thread.hint
          split_ifs with h1 h2 <;> first | omega | exact absurd (hsig h1) h2
        rw [hc]
        omega
      · rw [hc]
        rcases hu hopen (h.queue_empty_of_caller i t ht) with hu | hu
        · exact .inl hu
        · right
          omega
  | refused hsub ho hs' ht' =>
      subst hsub hs' ht'
      have hb := ((h.admitted.2 i _ ht) _ rfl).unrefused ho
      subst hb
      exact hcov.after ht hs rfl nofun rfl (.inr le_rfl) (.inr (.inr le_rfl))
  | store ht0 hc hu ht' =>
      subst ht0
      exact answered_of_store ht hs hserved hc hu ht'
  | insert ht0 hc hu ht' =>
      subst ht0 ht'
      refine hcov.signalled ht hs rfl nofun hc (show (0 : ℤ) ≤ 0 + 1 by omega) ?_
      change s'.units + 0 ≤ x.shared.units + 0 + 1
      omega
  | signal hs' ht0 =>
      subst hs'
      have hunits : x.shared.units + 1 ≤ x.shared.units + 0 + 1 := by omega
      rcases ht0 with ⟨w, b, rfl, rfl⟩ | ⟨rfl, rfl⟩
      · exact hcov.signalled ht hs rfl nofun rfl (show (1 : ℤ) ≤ 0 + 1 by omega) hunits
      · exact hcov.signalled ht hs rfl nofun rfl (show (1 : ℤ) ≤ 0 + 1 by omega) hunits
  | broadcast hs' hb hp hf =>
      subst hs'
      exact .inl (h.noneCurrent_after hs (hg.2.1 (by rw [ht]; exact hb)) hp)
  | leave ht0 ht' hs' =>
      subst ht0 ht'
      obtain ⟨c, hpoll, rfl⟩ := hs'
      have hb := h.waited_of_parked ht
      subst hb
      obtain ⟨hgen, hpark, htok⟩ := Cond.poll_some hpoll
      have hpos := h.parked_pos (List.mem_of_getElem? ht) rfl
      refine hcov.after ht hs rfl nofun hgen (.inr ?_) (.inr (.inr ?_))
      · change (c.parked : ℤ) + _ + 0 ≤ _ + c.tokens + 0
        omega
      · change x.shared.units + _ + 0 ≤ _ + c.tokens + 1
        omega
  | park ht0 hs' =>
      subst ht0
      exact answered_of_park ht hs hserved hs'

theorem answered (h : Run o wakeable x) : answered x := by
  refine Run.invariant (J := AntsPool.answered) ?_ ?_ ?_ h
  · intro y hy
    refine .inl fun u hu => ?_
    rcases hy.threads u hu with rfl | rfl | rfl <;> exact nofun
  · intro y c _ hcov hg
    -- a call starts with a thread that neither blocks nor owes a signal
    have hidle : (c.start y.threads.length).parkedAt = none ∧
        (c.start y.threads.length).signalling = false ∧
        (c.start y.threads.length).pending = false := by
      cases c <;> exact ⟨rfl, rfl, rfl⟩
    obtain ⟨hp, hsig, hpend⟩ := hidle
    unfold AntsPool.answered signals notified at hcov ⊢
    simp only [List.countP_append, List.countP_singleton, hsig, hpend, Bool.false_eq_true,
      if_false, add_zero, List.mem_append]
    rcases hcov with h | h | h | h
    · refine .inl fun u hu => ?_
      rcases List.mem_append.mp hu with hu | hu
      · exact h u hu
      · rw [List.mem_singleton.mp hu, hp]
        exact nofun
    · exact .inr (.inl h)
    · exact .inr (.inr (.inl (.inl h)))
    · exact .inr (.inr (.inr h))
  · intro y i a t s' t' new hr hcov hg ht hs
    exact hr.answered_step hcov hg ht hs

end Run

/-- A worker in its epilogue or in `revert_worker`, a `tune` that has not returned and a
woken caller that has yet to look for a worker. -/
def Thread.inFlight : Thread → Bool
  | .work ⟨_, _, .recv⟩ | .work ⟨_, _, .call _⟩ | .work ⟨_, _, .returned⟩ | .tune .returned => false
  | .work _ | .tune _ => true
  | .submit t => t.waited && t.pc.rechecks
  | _ => false

/-- No operation is in flight, and no token and no outdated caller is left. -/
structure Quiescent (x : Config) : Prop where
  threads : ∀ u ∈ x.threads, u.inFlight = false
  tokens : x.shared.cond.tokens = 0
  current : ∀ u ∈ x.threads, u.parks = true → u.parkedAt = some x.shared.cond.generation

instance (x : Config) : Decidable (Quiescent x) :=
  decidable_of_iff ((∀ u ∈ x.threads, u.inFlight = false) ∧ x.shared.cond.tokens = 0 ∧
    ∀ u ∈ x.threads, u.parks = true → u.parkedAt = some x.shared.cond.generation)
    ⟨fun h => ⟨h.1, h.2.1, h.2.2⟩, fun h => ⟨h.threads, h.tokens, h.current⟩⟩

theorem Thread.settled {t : Thread} (h : t.inFlight = false) :
    t.signalling = false ∧ t.pending = false ∧ t ≠ .tune .broadcast := by
  cases t with
  | submit t => exact ⟨rfl, h, nofun⟩
  | work t =>
      obtain ⟨w, b, pc⟩ := t
      cases pc with
      | recv | call | returned => exact ⟨rfl, rfl, nofun⟩
      | _ => cases h
  | tune t =>
      cases t with
      | returned => exact ⟨rfl, rfl, nofun⟩
      | _ => cases h
  | purge | ticktock | release | reboot | clock => exact ⟨rfl, rfl, nofun⟩

/-- In every wakeable run, once no operation is in flight a caller is blocked only when
the queue is empty and a bounded pool is full. -/
theorem no_lost_wakeup {o : Options} {x : Config} (h : Run o wakeable x) (hq : Quiescent x)
    {u : Thread} (hu : u ∈ x.threads) (hp : u.parks = true) :
    x.shared.workers.items = [] ∧
      (x.shared.capacity ≠ -1 → x.shared.capacity ≤ x.shared.running) := by
  have hsig : x.threads.countP Thread.signalling = 0 :=
    List.countP_eq_zero.mpr fun v hv => by simp [(Thread.settled (hq.threads v hv)).1]
  have hpend : x.threads.countP Thread.pending = 0 :=
    List.countP_eq_zero.mpr fun v hv => by simp [(Thread.settled (hq.threads v hv)).2.1]
  have hpos := h.parked_pos hu hp
  have hunits : x.shared.units ≤ 0 := by
    rcases h.answered with hnone | hfew | htune | hunits
    · exact absurd (hq.current u hu hp) (hnone u hu)
    · rw [signals, hq.tokens, hsig] at hfew
      omega
    · exact absurd rfl (Thread.settled (hq.threads _ htune)).2.2
    · rw [notified, hq.tokens, hpend] at hunits
      exact hunits
  unfold PoolCore.units at hunits
  exact ⟨List.eq_nil_of_length_eq_zero (by omega), fun _ => by omega⟩

/-- A second caller is blocked while the only worker runs the payload of the first. -/
theorem no_lost_wakeup_small :
    ∃ x, Run smallOptions wakeable x ∧ (∃ u ∈ x.threads, u.parks = true) ∧
      x.shared.workers.items = [] ∧
      (x.shared.capacity ≠ -1 → x.shared.capacity ≤ x.shared.running) := by
  obtain ⟨x, hx, hφ⟩ := Program.Reach.exists_of_run
    (P := program smallOptions) (I := Starts smallOptions) (G := wakeable) (x := smallPool)
    (m := .call (.submit false) :: steps 2 7 ++ steps 3 1 ++ .call (.submit false) :: steps 4 5)
    (φ := fun x => decide (Quiescent x ∧ ∃ u ∈ x.threads, u.parks = true)) smallPool_starts
    (by decide)
  obtain ⟨hq, u, hu, hp⟩ := of_decide_eq_true hφ
  exact ⟨x, hx, ⟨u, hu, hp⟩, no_lost_wakeup hx hq hu hp⟩

/-- The worker leaves and signals between the caller's test and its registration: the
pool is open and empty, nothing is in flight, and the caller is blocked. -/
theorem caller_blocked_on_empty_pool :
    ∃ x, Run smallOptions (fun _ m => openCalls m) x ∧ Quiescent x ∧ x.shared.state = .opened ∧
      (∃ u ∈ x.threads, u.parks = true) ∧ x.shared.capacity = 1 ∧ x.shared.running = 0 := by
  obtain ⟨x, hx, hφ⟩ := Program.Reach.exists_of_run
    (P := program smallOptions) (I := Starts smallOptions) (G := fun _ m => openCalls m)
    (x := smallPool)
    (m := .call (.submit true) :: steps 2 7 ++ steps 3 1 ++ .call (.submit false) :: steps 4 4 ++
      steps 3 5 ++ steps 4 1)
    (φ := fun x => decide (Quiescent x ∧ x.shared.state = .opened ∧
      (∃ u ∈ x.threads, u.parks = true) ∧ x.shared.capacity = 1 ∧ x.shared.running = 0))
    smallPool_starts (by decide)
  exact ⟨x, hx, of_decide_eq_true hφ⟩

end AntsPool
