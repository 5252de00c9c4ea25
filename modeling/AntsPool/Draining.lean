import AntsPool.Background
import AntsPool.Budgets
import AntsPool.Lifecycle
import AntsPool.Progress

/-!
# A closed pool drains

Until a reboot makes its exchange every thread of a closed pool only goes forward: a
worker that has run its payload exits, a caller that wakes up gives up, the two
background threads stop, and no worker is parked again but those that were about to
be. A thread is worth the steps that are left to it at most, and a parked worker is
worth the `Finish` that the scavenger may send it. Only the clock and a
`release_context` that polls the latch go on without end.

Once nothing else can take a step every worker has exited and is back in the cache,
and every payload that the pool accepted has been received.
-/
namespace AntsPool
open Interleaving ListTotals

/-- What is left to a worker's thread in a closed pool. It is at the receive once more
when it was about to park. -/
def WorkerPc.toGo : WorkerPc → ℕ
  | .insert => 15
  | .recv => 13
  | .call _ => 12
  | .revertCap => 11
  | .revertRunning _ => 10
  | .revertClosed | .stamp => 9
  | .refuse | .revertLock => 8
  | .exit => 7
  | .exitClosed => 6
  | .latchFetch => 5
  | .latchClose _ => 4
  | .recycle => 3
  | .report => 2
  | .signal => 1
  | .returned | .unwound => 0

/-- What is left to a caller, with the thread that it may start. -/
def SubmitPc.toGo : SubmitPc → ℕ
  | .lock => 19
  | .readCap => 18
  | .readRunning _ => 17
  | .spawn => 16
  | .run _ => 15
  | .park => 4
  | .parked _ => 3
  | .woken => 2
  | .checkClosed | .recheck | .input _ => 1
  | .ok _ | .err _ => 0

def Purge.toGo : Purge → ℕ
  | .refresh _ => 6
  | .finish _ stale _ => 5 + stale.length
  | .start | .broadcast _ => 4
  | .tick _ => 3
  | .checkClosed _ => 2
  | .done => 1
  | .returned | .panicked => 0

def Ticktock.toGo : Ticktock → ℕ
  | .start | .store _ => 4
  | .tick _ => 3
  | .checkClosed _ => 2
  | .done => 1
  | .returned => 0

/-- A `release_context` in its waiting loop. -/
def ReleasePc.polling : ReleasePc → Bool
  | .waitLatch _ | .ctxErr _ | .waitTimeout _ | .waitPurgeCtx _ | .waitTicktockCtx _
  | .testRunning _ | .testPurgeDone _ | .testTicktockDone _ | .retry _ => true
  | _ => false

def ReleasePc.toGo : ReleasePc → ℕ
  | .entryClosed => 17
  | .entryPurge => 16
  | .entryTicktock => 15
  | .copyPurgeCtx => 14
  | .copyTicktockCtx => 13
  | .exchange => 12
  | .takePurge => 11
  | .cancelPurge _ => 10
  | .takeTicktock => 9
  | .cancelTicktock _ => 8
  | .reset => 7
  | .broadcast => 6
  | .checkRunning => 5
  | .latchFetch => 4
  | .latchClose _ => 3
  | .waitFetch => 2
  | .returned _ => 0
  | _ => 1

def Tune.toGo : Tune → ℕ
  | .readCap _ => 3
  | .store _ _ => 2
  | .signal | .broadcast => 1
  | .returned => 0

/-- What is left to a reboot before its exchange. -/
def Reboot.toGo : Reboot → ℕ
  | .checkState => 5
  | .latchFetch => 4
  | .latchWait _ => 3
  | .waitPurge => 2
  | .waitTicktock => 1
  | _ => 0

namespace Thread

/-- How many steps are left to a thread of a closed pool, with those of the threads that
it may start. A thread that goes on without end counts as one step. -/
def toGo : Thread → ℕ
  | .submit t => t.pc.toGo
  | .work t => t.pc.toGo
  | .purge t => t.toGo
  | .ticktock t => t.toGo
  | .release t => t.pc.toGo
  | .reboot t => t.toGo
  | .tune t => t.toGo
  | .clock => 0

/-- Neither the clock, nor a `release_context` in its waiting loop, nor a reboot that is
about to open the pool. -/
def busy : Thread → Bool
  | .release t => !t.pc.polling
  | .reboot .exchange => false
  | .clock => false
  | _ => true

end Thread

/-- No reboot makes its exchange. -/
def noReopen (x : Config) : Move → Prop
  | .call _ => True
  | .step i _ => x.threads[i]? ≠ some (.reboot .exchange)

instance (x : Config) : (m : Move) → Decidable (noReopen x m)
  | .call _ => inferInstanceAs (Decidable True)
  | .step i _ => inferInstanceAs (Decidable (x.threads[i]? ≠ some (.reboot .exchange)))

/-- The pool is closed and no call is reopening it. -/
def shut (x : Config) : Prop :=
  x.shared.state = .closed ∧ ∀ t ∈ x.threads, t.reopening = false

instance (x : Config) : Decidable (shut x) := inferInstanceAs (Decidable (_ ∧ _))

def drainLedger : Ledger PoolCore Thread where
  held s := s.workers.items.length
  carried t := t.toGo

theorem drainLedger_solvent : drainLedger.Solvent :=
  ⟨fun _ => Int.natCast_nonneg _, fun _ => Int.natCast_nonneg _⟩

theorem Call.toGo_le (i : ℕ) (c : Call) : (c.start i).toGo ≤ 17 := by
  cases c <;> simp only [Call.start, Thread.toGo, SubmitPc.toGo, Tune.toGo, ReleasePc.toGo,
    Reboot.toGo] <;> omega

theorem Submit.Step.toGo {o : Options} {s s' : PoolCore} {t t' : Submit} {new : List Thread}
    (h : Submit.Step o s t s' t' new) (hc : s.state = .closed) :
    drainLedger.held s' + drainLedger.carried (.submit t') + total drainLedger.carried new + 1 ≤
      drainLedger.held s + drainLedger.carried (.submit t) := by
  cases h with
  | opened ho | recheckSome ho | recheckNone ho => cases hc.symm.trans ho
  | detachSome _ hd =>
      have hlen := (WorkerQueue.detach_some hd).length_eq
      simp only [List.length_cons] at hlen
      simp only [drainLedger, Thread.toGo, SubmitPc.toGo, total_nil]
      omega
  | detachNone _ hd =>
      obtain ⟨h1, h2⟩ := WorkerQueue.detach_none hd
      simp [drainLedger, Thread.toGo, SubmitPc.toGo, h1, h2]
  | input =>
      rw [total_nil, add_zero]
      exact le_rfl
  | run =>
      simp only [drainLedger, Thread.toGo, SubmitPc.toGo, WorkerPc.toGo, total_cons, total_nil]
      omega
  | _ =>
      simp only [drainLedger, Thread.toGo, SubmitPc.toGo, total_nil]
      omega

theorem Work.Step.toGo {s s' : PoolCore} {t t' : Work} (h : Work.Step s t s' t')
    (hc : s.state = .closed) :
    drainLedger.held s' + drainLedger.carried (.work t') + 1 ≤
      drainLedger.held s + drainLedger.carried (.work t) := by
  cases h with
  | opened ho | lockOpened _ ho => cases hc.symm.trans ho
  | insertOk hi =>
      simp only [drainLedger, Thread.toGo, WorkerPc.toGo, WorkerQueue.insert_items hi,
        List.length_append, List.length_singleton]
      push_cast
      omega
  | _ =>
      simp only [drainLedger, Thread.toGo, WorkerPc.toGo, PoolCore.closeEvent, PoolCore.recycle]
      omega

theorem Purge.Step.toGo {o : Options} {s s' : PoolCore} {t t' : Purge} (h : Purge.Step o s t s' t')
    (hc : s.state = .closed) :
    drainLedger.held s' + drainLedger.carried (.purge t') + 1 ≤
      drainLedger.held s + drainLedger.carried (.purge t) := by
  cases h with
  | opened ho => cases hc.symm.trans ho
  | refresh _ hr =>
      have hlen := (s.workers.refresh_perm s.stamp s.clock o.expiryDuration).length_eq
      simp only [hr, List.length_append] at hlen
      simp only [drainLedger, Thread.toGo, Purge.toGo]
      omega
  | finish =>
      simp only [drainLedger, Thread.toGo, Purge.toGo, PoolCore.finish, PoolCore.send,
        List.length_cons]
      omega
  | _ =>
      simp only [drainLedger, Thread.toGo, Purge.toGo, List.length_nil]
      omega

theorem Ticktock.Step.toGo {s s' : PoolCore} {t t' : Ticktock} (h : Ticktock.Step s t s' t')
    (hc : s.state = .closed) :
    drainLedger.held s' + drainLedger.carried (.ticktock t') + 1 ≤
      drainLedger.held s + drainLedger.carried (.ticktock t) := by
  cases h with
  | opened ho => cases hc.symm.trans ho
  | _ =>
      simp only [drainLedger, Thread.toGo, Ticktock.toGo]
      omega

/-- A release goes forward until it polls. -/
theorem Release.Step.toGo {o : Options} {i : ℕ} {s s' : PoolCore} {t t' : Release}
    (h : Release.Step o i s t s' t') :
    drainLedger.held s' + drainLedger.carried (.release t') + (if t.pc.polling then 0 else 1) ≤
      drainLedger.held s + drainLedger.carried (.release t) := by
  cases h with
  | reset =>
      simp only [drainLedger, Thread.toGo, ReleasePc.toGo, ReleasePc.polling, Release.reset_items,
        List.length_nil, Bool.false_eq_true, if_false]
      omega
  | exchangeFails _ ha | busy _ ha | latchClose ha =>
      cases ha <;>
        simp only [drainLedger, Thread.toGo, ReleasePc.toGo, ReleasePc.polling, PoolCore.closeEvent,
          Bool.false_eq_true, if_false] <;> omega
  | _ =>
      simp only [drainLedger, Thread.toGo, ReleasePc.toGo, ReleasePc.polling, PoolCore.closeEvent,
        Bool.false_eq_true, if_false, if_true]
      omega

/-- Every step of a shut pool takes something away, but those that go on without end. -/
theorem Thread.Step.toGo {o : Options} {i : ℕ} {s s' : PoolCore} {t t' : Thread}
    {new : List Thread} (h : Thread.Step o i s t s' t' new) (hc : s.state = .closed)
    (ht : t.reopening = false) :
    drainLedger.held s' + drainLedger.carried t' + total drainLedger.carried new +
      (if t.busy then 1 else 0) ≤ drainLedger.held s + drainLedger.carried t := by
  cases h with
  | submit h => exact h.toGo hc
  | work h =>
      rw [total_nil, add_zero]
      exact h.toGo hc
  | purge h =>
      rw [total_nil, add_zero]
      exact h.toGo hc
  | ticktock h =>
      rw [total_nil, add_zero]
      exact h.toGo hc
  | @release t _ _ h =>
      rw [total_nil, add_zero]
      have hleft := h.toGo
      cases hp : t.pc.polling <;> simpa [Thread.busy, hp] using hleft
  | reboot h =>
      cases h with
      | opened ho | exchangeFails ho => cases hc.symm.trans ho
      | closed | latchFetch | latchWait | waitPurge | waitTicktock | exchange =>
          simp only [drainLedger, Thread.toGo, Reboot.toGo, Thread.busy, total_nil, if_true,
            Bool.false_eq_true, if_false]
          omega
      | _ => cases ht
  | tune h =>
      rw [total_nil, add_zero]
      cases h <;> simp only [drainLedger, Thread.toGo, Tune.toGo, Thread.busy, if_true] <;> omega
  | clock => exact (add_zero _).trans_le (add_zero _).le

/-- Only the exchange of a reboot opens a closed pool. -/
theorem Thread.Step.stays_closed {o : Options} {i : ℕ} {s s' : PoolCore} {t t' : Thread}
    {new : List Thread} (h : Thread.Step o i s t s' t' new) (hc : s.state = .closed)
    (ht : t.reopening = false) (hne : t ≠ .reboot .exchange) :
    s'.state = .closed ∧ t'.reopening = false := by
  cases h.stateStep with
  | close _ hs _ _ _ hn => exact ⟨hs, hn⟩
  | same hs _ _ hn =>
      refine ⟨hs.trans hc, ?_⟩
      cases hre : t'.reopening with
      | false => rfl
      | true => cases ht.symm.trans (hn hre)
  | reopen _ ho _ hre =>
      cases h with
      | reboot h =>
          cases h with
          | exchange => exact (hne rfl).elim
          | _ => cases hc.symm.trans ho
      | _ => cases hre

/-- A shut pool stays shut. -/
theorem shut_of_reach {o : Options} {x₀ x : Config} (h₀ : shut x₀)
    (hx : (program o).Reach (fun z => z = x₀) noReopen x) : shut x := by
  refine Program.Reach.invariant (J := shut) ?_ ?_ ?_ hx
  · rintro y rfl
    exact h₀
  · intro y c _ hy _
    refine ⟨hy.1, fun t ht => ?_⟩
    rcases List.mem_append.mp ht with ht | ht
    · exact hy.2 t ht
    · rw [List.mem_singleton.mp ht]
      cases c <;> rfl
  · intro y i a t r _ hy hg ht hn
    have hs := program_step hn
    have hne : t ≠ .reboot .exchange := fun he => hg (he ▸ ht)
    obtain ⟨hc, hself⟩ := hs.stays_closed hy.1 (hy.2 t (List.mem_of_getElem? ht)) hne
    refine ⟨hc, fun u hu => ?_⟩
    rcases Config.mem_after hu with hu | rfl | hu
    · exact hy.2 u hu
    · exact hself
    · rcases hs.new_cases hu with ⟨w, rfl⟩ | rfl | rfl <;> rfl

theorem toGo_of_shut {o : Options} {x₀ : Config} (h₀ : shut x₀) (x : Config) (i : ℕ) (a : Env)
    (t : Thread) (r : PoolCore × Thread × List Thread)
    (hx : (program o).Reach (fun z => z = x₀) noReopen x) (ht : x.threads[i]? = some t)
    (hn : (program o).next x.shared i t a = some r) :
    drainLedger.held r.1 + drainLedger.carried r.2.1 + total drainLedger.carried r.2.2 +
      (if t.busy then 1 else 0) ≤ drainLedger.held x.shared + drainLedger.carried t :=
  (program_step hn).toGo (shut_of_reach h₀ hx).1
    ((shut_of_reach h₀ hx).2 t (List.mem_of_getElem? ht))

/-! ## What is left when nothing goes on -/

/-- A step names itself the closer only as a release. -/
theorem Thread.Step.closer_cases {o : Options} {i : ℕ} {s s' : PoolCore} {t t' : Thread}
    {new : List Thread} (h : Thread.Step o i s t s' t' new) :
    s'.past.closer = s.past.closer ∨ (s'.past.closer = some i ∧ t'.isRelease = true) := by
  cases h with
  | release h =>
      cases h with
      | exchange => exact .inr ⟨rfl, rfl⟩
      | reset =>
          rw [Release.reset_past]
          exact .inl rfl
      | _ => exact .inl rfl
  | submit h => cases h <;> exact .inl rfl
  | work h => cases h <;> exact .inl rfl
  | purge h => cases h <;> exact .inl rfl
  | ticktock h => cases h <;> exact .inl rfl
  | reboot h => cases h <;> exact .inl rfl
  | tune h => cases h <;> exact .inl rfl
  | clock => exact .inl rfl

theorem Thread.Step.isRelease {o : Options} {i : ℕ} {s s' : PoolCore} {t t' : Thread}
    {new : List Thread} (h : Thread.Step o i s t s' t' new) : t'.isRelease = t.isRelease := by
  cases h <;> rfl

namespace Run
variable {o : Options} {G : Guard} {x : Config}

/-- A pool was closed by a release. -/
theorem exists_closer (h : Run o G x) :
    (x.shared.state = .closed → ∃ i, x.shared.past.closer = some i) ∧
      ∀ i, x.shared.past.closer = some i → ∃ t, x.threads[i]? = some (.release t) := by
  have hall : (x.shared.state = .closed → ∃ i, x.shared.past.closer = some i) ∧
      ∀ i, x.shared.past.closer = some i →
        ∃ t : Thread, x.threads[i]? = some t ∧ t.isRelease = true := by
    refine Run.invariant (J := fun x => (x.shared.state = .closed →
      ∃ i, x.shared.past.closer = some i) ∧ ∀ i, x.shared.past.closer = some i →
        ∃ t : Thread, x.threads[i]? = some t ∧ t.isRelease = true) ?_ ?_ ?_ h
    · intro y hy
      refine ⟨fun hc => ?_, fun i hi => ?_⟩
      · cases hc.symm.trans hy.state
      · cases hi.symm.trans hy.closer
    · intro y c _ hy _
      refine ⟨hy.1, fun i hi => ?_⟩
      obtain ⟨t, ht, hr⟩ := hy.2 i hi
      have hlt := (List.getElem?_eq_some_iff.mp ht).1
      exact ⟨t, by rw [List.getElem?_append_left hlt, ht], hr⟩
    · intro y i a t s' t' new _ hy _ ht hs
      constructor
      · intro hc
        change ∃ i, s'.past.closer = some i
        rcases hs.closer_cases with hold | ⟨hself, _⟩
        · cases hs.stateStep with
          | close _ _ hself => exact ⟨i, hself⟩
          | reopen _ ho => cases hc.symm.trans ho
          | same hsame =>
              rw [hold]
              exact hy.1 (hsame.symm.trans hc)
        · exact ⟨i, hself⟩
      · intro k hk
        change s'.past.closer = some k at hk
        rcases eq_or_ne k i with rfl | hne
        · refine ⟨t', Config.getElem?_after_self ht, ?_⟩
          rcases hs.closer_cases with hold | ⟨_, hr⟩
          · obtain ⟨u, hu, hr⟩ := hy.2 k (hold ▸ hk)
            cases Option.some.inj (ht.symm.trans hu)
            exact hs.isRelease.trans hr
          · exact hr
        · rcases hs.closer_cases with hold | ⟨hself, _⟩
          · obtain ⟨u, hu, hr⟩ := hy.2 k (hold ▸ hk)
            exact ⟨u, Config.getElem?_after_ne hne hu, hr⟩
          · cases hself.symm.trans hk
            exact (hne rfl).elim
  refine ⟨hall.1, fun i hi => ?_⟩
  obtain ⟨t, ht, hr⟩ := hall.2 i hi
  cases t with
  | release t => exact ⟨t, ht⟩
  | _ => cases hr

end Run

/-- Everyone but the clock and the calls that poll has come to rest. -/
def atRest (o : Options) (x : Config) : Prop := (program o).AtRest Thread.busy x

theorem Thread.busy_of_holdsLock {t : Thread} (h : t.holdsLock = true) : t.busy = true := by
  cases t with
  | submit | work => rfl
  | _ => cases h

/-- The lock is free when everyone is at rest. -/
theorem Run.unlocked_of_atRest {o : Options} {G : Guard} {x : Config} (h : Run o G x)
    (hrest : atRest o x) : x.shared.locked = false := by
  cases hl : x.shared.locked with
  | false => rfl
  | true =>
      obtain ⟨i, t, hi, hold⟩ := h.exists_holder hl
      obtain ⟨r, hr⟩ := Thread.not_stuck_of_holdsLock (o := o) (s := x.shared) (i := i) hold .ok
      cases (hrest i t hi (Thread.busy_of_holdsLock hold) .ok).symm.trans hr

theorem Run.rests_of_atRest {o : Options} {G : Guard} {x : Config} (h : Run o G x)
    (hrest : atRest o x) {t : Thread} (ht : t ∈ x.threads) (hb : t.busy = true) :
    Thread.Rests o x.shared t := by
  obtain ⟨i, hi⟩ := List.mem_iff_getElem?.mp ht
  exact Thread.stuck.rests (i := i) (hrest i t hi hb) (h.unlocked_of_atRest hrest)

/-- A thread at rest refers to no worker. -/
theorem Thread.Rests.holds {o : Options} {s : PoolCore} {t : Thread} (h : Thread.Rests o s t)
    (w : ℕ) : t.holds w = 0 := by
  cases h <;> simp [Thread.holds, WorkerPc.owns]

theorem Run.holds_of_atRest {o : Options} {G : Guard} {x : Config} (h : Run o G x)
    (hrest : atRest o x) {t : Thread} (ht : t ∈ x.threads) (w : ℕ) : t.holds w = 0 := by
  cases hb : t.busy with
  | true => exact (h.rests_of_atRest hrest ht hb).holds w
  | false =>
      cases t with
      | release | reboot | clock => rfl
      | _ => cases hb

/-- A worker that is neither parked nor in the cache has a message on the way to it, when
everyone is at rest. -/
theorem Run.places_of_atRest {o : Options} {G : Guard} {x : Config} (h : Run o G x)
    (hrest : atRest o x) (w : ℕ) :
    (x.shared.workers.items.count w + x.shared.workerCache.count w +
      (x.shared.channel w).length : ℤ) = x.shared.existing w := by
  have hplaces := h.places_eq w
  have hnone : total (fun t : Thread => (t.holds w : ℤ)) x.threads = 0 :=
    total_eq_zero fun u hu => by rw [h.holds_of_atRest hrest hu w, Nat.cast_zero]
  rw [places, hnone] at hplaces
  omega

/-- No message is on its way when everyone is at rest. -/
theorem Run.channel_of_atRest {o : Options} {G : Guard} {x : Config} (h : Run o G x)
    (hrest : atRest o x) (w : ℕ) : x.shared.channel w = [] := by
  by_contra hne
  obtain ⟨⟨v, b, pc⟩, ht, rfl, rfl⟩ := h.served hne
  cases h.rests_of_atRest hrest ht rfl with
  | recv hc => exact hne hc

/-- What a shut pool comes to: every worker has exited and is in the cache, every payload
that was accepted has been received, and a caller that is left has been passed over by
every notification. -/
structure Drained (x : Config) : Prop where
  running : x.shared.running = 0
  queue : x.shared.workers.items = []
  workers : ∀ t, Thread.work t ∈ x.threads → t.pc = .returned ∨ t.pc = .unwound
  cached : ∀ w < x.shared.goWorkerCount, x.shared.workerCache.count w = 1
  received : ∀ i p b w, x.threads[i]? = some (.submit ⟨p, b, .ok w⟩) →
    x.shared.past.received.count (i, w) = 1
  callers : ∀ t, Thread.submit t ∈ x.threads → (∃ w, t.pc = .ok w) ∨ (∃ e, t.pc = .err e) ∨
    t.pc = .parked x.shared.cond.generation ∧ x.shared.cond.tokens = 0
  background : ∀ t ∈ x.threads, t.purgeAlive = false ∧ t.ticktockAlive = false

/-- A shut pool parks no worker when everyone is at rest: the release that closed it has
made its reset. -/
theorem Run.queue_of_atRest {o : Options} {x : Config} (h : Run o anyMove x)
    (hc : x.shared.state = .closed) (hrest : atRest o x) : x.shared.workers.items = [] := by
  obtain ⟨i, hi⟩ := h.exists_closer.1 hc
  obtain ⟨⟨m, p, k, pc⟩, ht⟩ := h.exists_closer.2 i hi
  have hreset : (Thread.release ⟨m, p, k, pc⟩).closing = false := by
    cases hb : pc.polling with
    | true => cases pc <;> first | rfl | cases hb
    | false =>
        have hbusy : (Thread.release ⟨m, p, k, pc⟩).busy = true := by simp [Thread.busy, hb]
        cases h.rests_of_atRest hrest (List.mem_of_getElem? ht) hbusy <;> rfl
  obtain ⟨hq, hv⟩ := h.closed
  obtain ⟨l, hl⟩ := (hv i _ ht hc).reset hi hreset
  exact ((hq hc).drained l hl).1

theorem Run.drained {o : Options} {x : Config} (h : Run o anyMove x)
    (hc : x.shared.state = .closed) (hrest : atRest o x) : Drained x := by
  have hqueue := h.queue_of_atRest hc hrest
  have hexited : ∀ t, Thread.work t ∈ x.threads → t.pc = .returned ∨ t.pc = .unwound := by
    intro t ht
    cases h.rests_of_atRest hrest ht rfl with
    | returned => exact .inl rfl
    | unwound => exact .inr rfl
    | @recv w b =>
        -- its worker would be in no place
        have hserve := h.serves_eq w
        have hplaces := h.places_of_atRest hrest w
        have hone : 0 < x.threads.countP (Thread.serves w) :=
          List.countP_pos_iff.mpr ⟨_, ht, by simp [Thread.serves, WorkerPc.serves]⟩
        rw [hqueue, h.channel_of_atRest hrest w] at hplaces
        simp only [List.count_nil, List.length_nil] at hplaces
        omega
  constructor
  case queue => exact hqueue
  case workers => exact hexited
  case running =>
    rw [h.running_eq]
    refine Int.natCast_eq_zero.mpr (List.countP_eq_zero.mpr fun t ht hcount => ?_)
    cases t with
    | work t =>
        rcases hexited t ht with hpc | hpc <;>
          simp [Thread.counted, hpc, WorkerPc.counted] at hcount
    | _ => cases hcount
  case cached =>
    intro w hw
    have hplaces := h.places_of_atRest hrest w
    rw [hqueue, h.channel_of_atRest hrest w, PoolCore.existing, if_pos hw] at hplaces
    simp only [List.count_nil, List.length_nil] at hplaces
    omega
  case received =>
    intro i p b w ht
    have hsent := h.sent_once ht
    rw [PoolCore.sent, h.channel_of_atRest hrest w] at hsent
    simpa using hsent
  case callers =>
    intro t ht
    cases h.rests_of_atRest hrest ht rfl with
    | ok => exact .inl ⟨_, rfl⟩
    | err => exact .inr (.inl ⟨_, rfl⟩)
    | parked hp =>
        obtain ⟨htokens, hgen⟩ := Cond.poll_none hp
        exact .inr (.inr ⟨by rw [hgen], htokens⟩)
  case background =>
    intro t ht
    cases t with
    | purge t => cases h.rests_of_atRest hrest ht rfl <;> exact ⟨rfl, rfl⟩
    | ticktock t =>
        cases h.rests_of_atRest hrest ht rfl
        exact ⟨rfl, rfl⟩
    | _ => exact ⟨rfl, rfl⟩

theorem busy_allowed (x : Config) (i : ℕ) (t : Thread) (a : Env) (ht : x.threads[i]? = some t)
    (hb : t.busy = true) : noReopen x (.step i a) := by
  intro he
  cases ht.symm.trans he
  cases hb

/-- A closed pool drains. Under every interleaving, with any further calls and up to the
exchange of a reboot, its threads take no more steps than are left to them and to the
calls; when nothing goes on any more the pool is drained; and it can get there. -/
theorem closed_pool_drains {o : Options} {x₀ : Config} (h₀ : Run o anyMove x₀)
    (hshut : shut x₀) :
    (∀ h x, (program o).Trace (fun z => z = x₀) noReopen h x →
      (h.countP (Event.isBusy Thread.busy) : ℤ) ≤
        drainLedger.balance x₀ + 17 * h.countP Event.isCall ∧
      (atRest o x → Drained x)) ∧
    ∃ x, (program o).Reach (fun z => z = x₀) noReopen x ∧ Drained x := by
  have hdrained : ∀ x, (program o).Reach (fun z => z = x₀) noReopen x → atRest o x →
      Drained x := by
    intro x hx hrest
    have hrun : Run o anyMove x := h₀.trans (hx.weaken fun _ _ _ => trivial)
    exact hrun.drained (shut_of_reach hshut hx).1 hrest
  constructor
  · intro h x hx
    refine ⟨?_, hdrained x hx.reach⟩
    refine Program.Trace.busy_le drainLedger_solvent (fun i c => ?_) (toGo_of_shut hshut) hx
    exact Int.ofNat_le.mpr (Call.toGo_le i c)
  · obtain ⟨x, hx, hrest⟩ := Program.Reach.exists_atRest drainLedger_solvent
      busy_allowed (toGo_of_shut hshut) (.init rfl)
    exact ⟨x, hx, hdrained x hx hrest⟩

/-- The parked worker of a small pool gets its `Finish`, exits and is cached. -/
theorem closed_pool_drains_small :
    shut resetPool ∧ resetPool.shared.running = 1 ∧
      ∃ x, (program smallOptions).Reach (fun z => z = resetPool) noReopen x ∧ Drained x := by
  have hrun : Run smallOptions anyMove resetPool :=
    Program.Reach.run (.init smallPool_starts) (Option.some_get _).symm
  have hshut : shut resetPool := by decide
  exact ⟨hshut, by decide, (closed_pool_drains hrun hshut).2⟩

end AntsPool
