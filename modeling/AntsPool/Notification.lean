import AntsPool.Waiting

/-!
# Notifications and the callers they reach

A caller blocked in the condition variable is current until a broadcast makes its
generation outdated. What can still reach a current caller is a token, a thread
that has yet to signal and a thread that has yet to broadcast. Units are what a
caller could be served with: a parked worker or room for a new one. One relation
says what a step does to all of these.
-/
namespace AntsPool
open Interleaving ListTotals

namespace PoolCore

/-- The workers a caller could get: parked ones and room for new ones. -/
def units (s : PoolCore) : ℤ := s.workers.items.length + max 0 (s.capacity - s.running)

end PoolCore

/-- From the return of `Cond::wait` to the hand-over or the next registration. -/
def SubmitPc.rechecks : SubmitPc → Bool
  | .woken | .recheck | .readCap | .readRunning _ | .spawn | .run _ | .park => true
  | _ => false

/-- From an unsuccessful look into the queue to the next release of the lock. -/
def SubmitPc.searched : SubmitPc → Bool
  | .readCap | .readRunning _ | .spawn | .run _ | .park => true
  | _ => false

theorem SubmitPc.holdsLock_of_searched {pc : SubmitPc} (h : pc.searched = true) :
    pc.holdsLock = true := by
  cases pc with
  | readCap | readRunning | spawn | run | park => rfl
  | _ => cases h

/-- Past the decrement of `running`, with the signal still to come. -/
def WorkerPc.signals : WorkerPc → Bool
  | .exitClosed | .latchFetch | .latchClose _ | .recycle | .report | .signal | .unwound => true
  | _ => false

namespace Thread

/-- The generation a blocked caller leaves on when it changes. -/
def parkedAt : Thread → Option ℕ
  | .submit ⟨_, _, .parked g⟩ => some g
  | _ => none

/-- A caller back from the wait that has yet to look for a worker. -/
def awake : Thread → Bool
  | .submit t => t.waited && t.pc.rechecks
  | _ => false

/-- A thread that has yet to signal for a slot it has freed or made. -/
def signalling : Thread → Bool
  | .work t => t.pc.signals
  | .tune .signal => true
  | _ => false

def pending (t : Thread) : Bool := t.signalling || t.awake

/-- A thread about to broadcast. -/
def broadcasting : Thread → Bool
  | .work ⟨_, _, .refuse⟩ | .purge (.broadcast _) | .release ⟨_, _, _, .broadcast⟩
  | .tune .broadcast => true
  | _ => false

/-- A worker's thread that has not finished its epilogue. -/
def unfinished : Thread → Bool
  | .work ⟨_, _, .returned⟩ => false
  | .work _ => true
  | _ => false

def hint (t : Thread) : ℤ := if t.signalling then 1 else 0

def hope (t : Thread) : ℤ := if t.pending then 1 else 0

theorem parks_of_parkedAt {t : Thread} {g : ℕ} (h : t.parkedAt = some g) : t.parks = true := by
  cases t with
  | submit t =>
      obtain ⟨p, b, pc⟩ := t
      cases pc <;> first | rfl | cases h
  | _ => cases h

theorem hope_submit (t : Submit) :
    (Thread.submit t).hope = if (t.waited && t.pc.rechecks) = true then 1 else 0 := rfl

end Thread

/-- What a step does to the condition variable and to the callers and notifiers
around it. The bound on the units in a quiet step is for an open pool whose queue
is empty while a caller has the lock. -/
inductive CondStep (o : Options) (s : PoolCore) (t : Thread) (s' : PoolCore) (t' : Thread) : Prop
  | quiet (hc : s'.cond = s.cond) (hp : t'.parkedAt = none)
      (hs : t.signalling = true → t'.signalling = true) (hb : t ≠ .tune .broadcast)
      (hf : t.unfinished = true → t'.unfinished = true)
      (hu : s.state = .opened →
        (∀ u, t = .submit u → u.pc.searched = true → s.workers.items = []) →
        s'.units ≤ 0 ∨ s'.units + t.hope ≤ s.units + t'.hope)
  | refused {p b c} (ht : t = .submit ⟨p, b, .readRunning c⟩)
      (ho : Submit.overloaded o s = true) (hs : s' = { s with locked := false })
      (ht' : t' = .submit ⟨p, b, .err .poolOverload⟩)
  | store {size c} (ht : t = .tune (.store size c)) (hc : s'.cond = s.cond)
      (hu : s'.units = s.workers.items.length + max 0 (size - s.running))
      (ht' : size ≤ c ∧ t' = .tune .returned ∨ size = c + 1 ∧ t' = .tune .signal ∨
        c + 1 < size ∧ t' = .tune .broadcast)
  | insert {w b} (ht : t = .work ⟨w, b, .insert⟩) (hc : s'.cond = s.cond.signal)
      (hu : s'.units = s.units + 1) (ht' : t' = .work ⟨w, b, .recv⟩)
  | signal (hs : s' = { s with cond := s.cond.signal })
      (ht : (∃ w b, t = .work ⟨w, b, .signal⟩ ∧ t' = .work ⟨w, b, .returned⟩) ∨
        t = .tune .signal ∧ t' = .tune .returned)
  | broadcast (hs : s' = { s with cond := s.cond.broadcast }) (hb : t.broadcasting = true)
      (hp : t'.parkedAt = none) (hf : t.unfinished = true → t'.unfinished = true)
  | leave {p b g} (ht : t = .submit ⟨p, b, .parked g⟩) (ht' : t' = .submit ⟨p, b, .woken⟩)
      (hs : ∃ c, s.cond.poll g = some c ∧ s' = { s with cond := c })
  | park {p b} (ht : t = .submit ⟨p, b, .park⟩)
      (hs : (∃ c, s.cond.register.poll s.cond.generation = some c ∧
          s' = { s with cond := c, locked := false } ∧ t' = .submit ⟨p, true, .woken⟩) ∨
        (s.cond.tokens = 0 ∧ s' = { s with cond := s.cond.register, locked := false } ∧
          t' = .submit ⟨p, true, .parked s.cond.generation⟩))

theorem Submit.Step.condStep {o : Options} {s s' : PoolCore} {t t' : Submit}
    {new : List Thread} (h : Submit.Step o s t s' t' new) :
    CondStep o s (.submit t) s' (.submit t') := by
  cases h with
  | closed | opened | input =>
      refine .quiet rfl rfl nofun nofun nofun fun _ _ => .inr ?_
      simp only [Thread.hope_submit, SubmitPc.rechecks, Bool.and_false]
      exact le_rfl
  | unlimited | bounded | room | enlist | spawnCached | spawnNew | woken =>
      exact .quiet rfl rfl nofun nofun nofun fun _ _ => .inr le_rfl
  | detachSome hl hd =>
      have hlen := (WorkerQueue.detach_some hd).length_eq
      refine .quiet rfl rfl nofun nofun nofun fun _ _ => .inr ?_
      simp only [List.length_cons] at hlen
      simp only [Thread.hope_submit, SubmitPc.rechecks, Bool.and_false, PoolCore.units, hlen]
      omega
  | detachNone hl hd =>
      obtain ⟨h1, h2⟩ := WorkerQueue.detach_none hd
      refine .quiet rfl rfl nofun nofun nofun fun _ _ => .inr ?_
      simp only [Thread.hope_submit, SubmitPc.rechecks, Bool.and_false, Bool.and_true,
        PoolCore.units, h1, h2, Bool.false_eq_true, if_false]
      split <;> omega
  | overload _ ho => exact .refused rfl ho rfl rfl
  | run =>
      refine .quiet rfl rfl nofun nofun nofun fun _ hlock => ?_
      have hq := hlock _ rfl rfl
      simp only [Thread.hope_submit, SubmitPc.rechecks, Bool.and_false, Bool.and_true,
        PoolCore.units, hq, List.length_nil, Bool.false_eq_true, if_false]
      split <;> omega
  | parkLeaves hp => exact .park rfl (.inl ⟨_, hp, rfl, rfl⟩)
  | parkBlocks ht => exact .park rfl (.inr ⟨ht, rfl, rfl⟩)
  | leave hp => exact .leave rfl rfl ⟨_, hp, rfl⟩
  | recheckClosed hc =>
      exact .quiet rfl rfl nofun nofun nofun fun ho => by cases ho.symm.trans hc
  | recheckSome _ hd =>
      have hlen := (WorkerQueue.detach_some hd).length_eq
      refine .quiet rfl rfl nofun nofun nofun fun _ _ => .inr ?_
      simp only [List.length_cons] at hlen
      simp only [Thread.hope_submit, SubmitPc.rechecks, Bool.and_false, Bool.and_true,
        PoolCore.units, hlen]
      split <;> omega
  | recheckNone _ hd =>
      obtain ⟨h1, h2⟩ := WorkerQueue.detach_none hd
      refine .quiet rfl rfl nofun nofun nofun fun _ _ => .inr ?_
      simp only [Thread.hope_submit, SubmitPc.rechecks, PoolCore.units, h1, h2]
      exact le_rfl

theorem Work.Step.condStep {o : Options} {s s' : PoolCore} {t t' : Work}
    (h : Work.Step s t s' t') : CondStep o s (.work t) s' (.work t') := by
  cases h with
  | refuse => exact .broadcast rfl rfl rfl fun _ => rfl
  | insertOk hi =>
      refine .insert rfl rfl ?_ rfl
      simp only [PoolCore.units, WorkerQueue.insert_items hi, List.length_append,
        List.length_singleton]
      push_cast
      omega
  | exitLast | exitMore =>
      refine .quiet rfl rfl nofun nofun (fun _ => rfl) fun _ _ => .inr ?_
      simp only [PoolCore.units, Thread.hope, Thread.pending, Thread.signalling, WorkerPc.signals,
        Thread.awake, Bool.or_false, Bool.false_eq_true, if_false, if_true]
      omega
  | signal => exact .signal rfl (.inl ⟨_, _, rfl, rfl⟩)
  | _ =>
      exact .quiet rfl rfl (fun h => by first | rfl | cases h) nofun (fun _ => rfl)
        fun _ _ => .inr le_rfl

theorem Tune.Step.condStep {o : Options} {s s' : PoolCore} {t t' : Tune}
    (h : Tune.Step o s t s' t') : CondStep o s (.tune t) s' (.tune t') := by
  cases h with
  | ignored | readCap => exact .quiet rfl rfl nofun nofun nofun fun _ _ => .inr le_rfl
  | shrink h => exact .store rfl rfl rfl (.inl ⟨h, rfl⟩)
  | growOne h => exact .store rfl rfl rfl (.inr (.inl ⟨h, rfl⟩))
  | grow h => exact .store rfl rfl rfl (.inr (.inr ⟨h, rfl⟩))
  | signal => exact .signal rfl (.inr ⟨rfl, rfl⟩)
  | broadcast => exact .broadcast rfl rfl rfl nofun

theorem Release.Step.condStep {o : Options} {i : ℕ} {s s' : PoolCore} {t t' : Release}
    (h : Release.Step o i s t s' t') : CondStep o s (.release t) s' (.release t') := by
  cases h with
  | broadcast => exact .broadcast rfl rfl rfl nofun
  | reset =>
      obtain ⟨_, _, hr, _⟩ := Release.reset_frame i s
      refine .quiet (by rw [hr]) rfl nofun nofun nofun fun _ _ => .inr ?_
      rw [hr]
      simp only [PoolCore.units, s.workers.reset_items.2, List.length_nil]
      change _ + 0 ≤ _ + 0
      omega
  | _ => exact .quiet rfl rfl nofun nofun nofun fun _ _ => .inr le_rfl

theorem Purge.Step.condStep {o : Options} {s s' : PoolCore} {t t' : Purge}
    (h : Purge.Step o s t s' t') : CondStep o s (.purge t) s' (.purge t') := by
  cases h with
  | broadcast => exact .broadcast rfl rfl rfl nofun
  | refresh hl hr hb =>
      have hlen := (s.workers.refresh_perm s.stamp s.clock o.expiryDuration).length_eq
      rw [hr, List.length_append] at hlen
      refine .quiet rfl rfl nofun nofun nofun fun _ _ => .inr ?_
      simp only [PoolCore.units, hlen]
      change _ + 0 ≤ _ + 0
      omega
  | _ => exact .quiet rfl rfl nofun nofun nofun fun _ _ => .inr le_rfl

theorem Thread.Step.condStep {o : Options} {i : ℕ} {s s' : PoolCore} {t t' : Thread}
    {new : List Thread} (h : Thread.Step o i s t s' t' new) : CondStep o s t s' t' := by
  cases h with
  | submit h => exact h.condStep
  | work h => exact h.condStep
  | purge h => exact h.condStep
  | release h => exact h.condStep
  | tune h => exact h.condStep
  | ticktock h => cases h <;> exact .quiet rfl rfl nofun nofun nofun fun _ _ => .inr le_rfl
  | reboot h => cases h <;> exact .quiet rfl rfl nofun nofun nofun fun _ _ => .inr le_rfl
  | clock => exact .quiet rfl rfl nofun nofun nofun fun _ _ => .inr le_rfl

end AntsPool
