import AntsPool.Accounts

/-!
# Every worker is in one place

Three ledgers for a fixed worker. The first follows its references: parked,
cached, held by a caller, in a stale list, or with its own thread once a message
has been received. A message in the channel stands for the thread that is about
to receive it. The second follows the thread that serves the worker, the third a
payload from the caller that sent it to the thread that received it.
-/
namespace AntsPool
open Interleaving ListTotals

namespace PoolCore

def channel (s : PoolCore) (w : ℕ) : List Message := (s.goWorkers w).channel

theorem channel_send (s : PoolCore) (v w : ℕ) (m : Message) :
    (s.send v m).channel w = s.channel w ++ if w = v then [m] else [] := by
  simp only [channel, send, Function.update_apply]
  split_ifs with h
  · rw [h]
  · rw [List.append_nil]

theorem channel_finish (s : PoolCore) (v w : ℕ) :
    (s.finish v).channel w = s.channel w ++ if w = v then [.finish] else [] :=
  s.channel_send v w .finish

theorem channel_finishAll (s : PoolCore) (ws : List ℕ) (w : ℕ) :
    (s.finishAll ws).channel w = s.channel w ++ List.replicate (ws.count w) .finish := by
  induction ws generalizing s with
  | nil => simp [finishAll]
  | cons v ws ih =>
      rw [finishAll, ih, channel_finish, List.append_assoc, List.count_cons]
      by_cases h : v = w
      · simp [h, List.replicate_succ]
      · simp [h, Ne.symm h]

theorem past_finishAll (s : PoolCore) (ws : List ℕ) :
    (s.finishAll ws).past = { s.past with finished := ws.reverse ++ s.past.finished } := by
  induction ws generalizing s with
  | nil => rfl
  | cons v ws ih =>
      rw [finishAll, ih, List.reverse_cons, List.append_assoc]
      rfl

end PoolCore

theorem Release.reset_items (i : ℕ) (s : PoolCore) : (Release.reset i s).workers.items = [] := by
  obtain ⟨_, _, hr, _⟩ := Release.reset_frame i s
  rw [hr]
  exact s.workers.reset_items.2

theorem Release.reset_channel (i : ℕ) (s : PoolCore) (w : ℕ) :
    (Release.reset i s).channel w =
      s.channel w ++ List.replicate (s.workers.items.count w) .finish := by
  rw [← s.workers.reset_items.1]
  exact PoolCore.channel_finishAll { s with workers := s.workers.reset.2 } _ w

/-- Whether a worker's thread has the worker to itself: from a receipt until it
parks the worker or puts it into the cache. -/
def WorkerPc.owns : WorkerPc → Bool
  | .recv | .report | .signal | .returned | .unwound => false
  | _ => true

/-- Whether a worker's thread has not put the worker into the cache yet. -/
def WorkerPc.serves : WorkerPc → Bool
  | .report | .signal | .returned | .unwound => false
  | _ => true

namespace Thread

/-- How often a thread refers to worker `w`. -/
def holds (w : ℕ) : Thread → ℕ
  | .submit ⟨_, _, .run v⟩ | .submit ⟨_, _, .input v⟩ => if v = w then 1 else 0
  | .work t => if t.worker = w ∧ t.pc.owns then 1 else 0
  | .purge (.finish _ stale _) => stale.count w
  | _ => 0

/-- Whether a thread serves worker `w` or is about to start the thread that will. -/
def serves (w : ℕ) : Thread → Bool
  | .submit ⟨_, _, .run v⟩ => v = w
  | .work t => t.worker = w ∧ t.pc.serves
  | _ => false

/-- Whether a thread is a call that handed payload `n` to worker `w`. -/
def handed (n w : ℕ) : Thread → Bool
  | .submit ⟨p, _, .ok v⟩ => p.id = n ∧ v = w
  | _ => false

end Thread

def Message.carries (n : ℕ) : Message → Bool
  | .payload p => p.id = n
  | .finish => false

namespace PoolCore

/-- `1` for a worker that exists. -/
def existing (s : PoolCore) (w : ℕ) : ℤ := if w < s.goWorkerCount then 1 else 0

end PoolCore

def ownLedger (w : ℕ) : Ledger PoolCore Thread where
  held s := s.workers.items.count w + s.workerCache.count w + (s.channel w).length - s.existing w
  carried t := t.holds w

def serveLedger (w : ℕ) : Ledger PoolCore Thread where
  held s := s.workerCache.count w - s.existing w
  carried t := if t.serves w then 1 else 0

/-- A worker about to be made has nothing in its channel. -/
def blank (w : ℕ) (s : PoolCore) (_ : Thread) : Prop :=
  s.goWorkerCount = w → s.channel w = []

theorem ownLedger_send (w : ℕ) (s : PoolCore) (v : ℕ) (m : Message) :
    (ownLedger w).held (s.send v m) = (ownLedger w).held s + if v = w then 1 else 0 := by
  have hlen : ((s.send v m).channel w).length = (s.channel w).length + if v = w then 1 else 0 := by
    rw [PoolCore.channel_send, List.length_append]
    by_cases h : v = w
    · simp [h]
    · simp [h, Ne.symm h]
  have hheld : (ownLedger w).held (s.send v m) = s.workers.items.count w +
      s.workerCache.count w + ((s.send v m).channel w).length - s.existing w := rfl
  rw [hheld, hlen]
  simp only [ownLedger]
  push_cast
  omega

theorem ownLedger_submit {o : Options} {s s' : PoolCore} {t t' : Submit} {new : List Thread} (w : ℕ)
    (hV : s.goWorkerCount = w → s.channel w = []) (h : Submit.Step o s t s' t' new) :
    (ownLedger w).held s' + (ownLedger w).carried (.submit t') +
        total (ownLedger w).carried new =
      (ownLedger w).held s + (ownLedger w).carried (.submit t) := by
  cases h with
  | detachSome _ hd | recheckSome _ hd =>
      have hc := (WorkerQueue.detach_some hd).count_eq w
      simp only [List.count_cons, beq_iff_eq] at hc
      simp only [ownLedger, PoolCore.channel, PoolCore.existing, Thread.holds, total_nil, add_zero,
        hc]
      push_cast
      omega
  | detachNone _ hd | recheckNone _ hd =>
      obtain ⟨h1, h2⟩ := WorkerQueue.detach_none hd
      simp [ownLedger, Thread.holds, PoolCore.channel, PoolCore.existing, h1, h2]
  | spawnCached hc =>
      simp only [ownLedger, PoolCore.channel, PoolCore.existing, Thread.holds, total_nil, add_zero,
        hc, List.count_cons, beq_iff_eq]
      push_cast
      omega
  | spawnNew hc =>
      by_cases hw : w = s.goWorkerCount
      · subst hw
        have hch : (s.goWorkers s.goWorkerCount).channel = [] := hV rfl
        simp [ownLedger, Thread.holds, PoolCore.channel, PoolCore.existing, hch]
      · have hlt : (w < s.goWorkerCount + 1) = (w < s.goWorkerCount) := by
          simp only [eq_iff_iff]
          omega
        simp [ownLedger, Thread.holds, PoolCore.channel, PoolCore.existing, hw, Ne.symm hw, hlt]
  | run => simp [ownLedger, Thread.holds, PoolCore.channel, PoolCore.existing, WorkerPc.owns]
  | input =>
      rw [ownLedger_send, total_nil]
      simp [ownLedger, Thread.holds]
  | _ => exact add_zero _

theorem ownLedger_work {s s' : PoolCore} {t t' : Work} (w : ℕ) (h : Work.Step s t s' t') :
    (ownLedger w).held s' + (ownLedger w).carried (.work t') =
      (ownLedger w).held s + (ownLedger w).carried (.work t) := by
  cases h with
  | @recvPayload v _ _ _ hc | @recvFinish v _ _ hc =>
      by_cases hw : v = w
      · subst hw
        simp only [ownLedger, PoolCore.channel, PoolCore.existing, Thread.holds, WorkerPc.owns,
          Function.update_self, and_self, ↓reduceIte, hc, List.length_cons, Bool.false_eq_true,
          and_false]
        push_cast
        omega
      · simp [ownLedger, Thread.holds, PoolCore.channel, PoolCore.existing, WorkerPc.owns, hw,
          Ne.symm hw]
  | @stamp v =>
      by_cases hw : v = w
      · subst hw
        simp [ownLedger, Thread.holds, PoolCore.channel, PoolCore.existing, WorkerPc.owns]
      · simp [ownLedger, Thread.holds, PoolCore.channel, PoolCore.existing, WorkerPc.owns, hw,
          Ne.symm hw]
  | insertOk hi =>
      simp only [ownLedger, PoolCore.channel, PoolCore.existing, Thread.holds, WorkerPc.owns,
        WorkerQueue.insert_items hi, List.count_append, List.count_singleton, beq_iff_eq,
        Bool.false_eq_true, and_false, ↓reduceIte, and_true]
      push_cast
      omega
  | recycleReport | recycleSignal =>
      simp only [ownLedger, PoolCore.channel, PoolCore.existing, Thread.holds, WorkerPc.owns,
        PoolCore.recycle, List.count_cons, beq_iff_eq, Bool.false_eq_true, and_false, ↓reduceIte,
        and_true]
      push_cast
      omega
  | _ => rfl

theorem ownLedger_kept (o : Options) (w : ℕ) : (ownLedger w).Kept (program o) (blank w) := by
  refine kept_of_steps ?_ ?_
  · intro i c
    cases c <;> rfl
  · intro i s t s' t' new hV h
    cases h with
    | submit h => exact ownLedger_submit w hV h
    | work h =>
        rw [total_nil, add_zero]
        exact ownLedger_work w h
    | purge h =>
        rw [total_nil, add_zero]
        cases h with
        | refresh _ hr =>
            have hc := (s.workers.refresh_perm s.stamp s.clock o.expiryDuration).count_eq w
            rw [hr, List.count_append] at hc
            simp only [ownLedger, PoolCore.channel, PoolCore.existing, Thread.holds, hc]
            push_cast
            omega
        | @finish c v stale b =>
            have hsend : (ownLedger w).held (s.finish v) = _ := ownLedger_send w s v .finish
            rw [hsend]
            simp only [ownLedger, Thread.holds, List.count_cons, beq_iff_eq]
            push_cast
            omega
        | _ => rfl
    | release h =>
        rw [total_nil, add_zero]
        cases h with
        | reset =>
            obtain ⟨g, p, hr, _⟩ := Release.reset_frame i s
            have hcache : (Release.reset i s).workerCache = s.workerCache := by rw [hr]
            have hcount : (Release.reset i s).goWorkerCount = s.goWorkerCount := by rw [hr]
            simp only [ownLedger, PoolCore.existing, Thread.holds, Release.reset_items,
              List.count_nil, hcache, Release.reset_channel, List.length_append,
              List.length_replicate, hcount]
            push_cast
            omega
        | _ => rfl
    | ticktock h => cases h <;> exact add_zero _
    | reboot h => cases h <;> exact add_zero _
    | tune h => cases h <;> exact add_zero _
    | clock => exact add_zero _

theorem serveLedger_kept (o : Options) (w : ℕ) :
    (serveLedger w).Kept (program o) fun _ _ => True := by
  refine kept_of_steps ?_ ?_
  · intro i c
    cases c <;> rfl
  · intro i s t s' t' new _ h
    cases h with
    | submit h =>
        cases h with
        | spawnCached hc =>
            simp only [serveLedger, PoolCore.existing, Thread.serves, Bool.decide_and,
              Bool.decide_eq_true, decide_eq_true_eq, total_nil, add_zero, hc, List.count_cons,
              beq_iff_eq, Bool.false_eq_true, ↓reduceIte]
            push_cast
            omega
        | spawnNew =>
            simp only [serveLedger, PoolCore.existing, Thread.serves, Bool.decide_and,
              Bool.decide_eq_true, decide_eq_true_eq, total_nil, add_zero, Bool.false_eq_true,
              ↓reduceIte]
            omega
        | run => simp [serveLedger, Thread.serves, WorkerPc.serves, PoolCore.existing]
        | _ => exact add_zero _
    | work h =>
        rw [total_nil, add_zero]
        cases h with
        | recycleReport | recycleSignal =>
            simp only [serveLedger, PoolCore.existing, Thread.serves, WorkerPc.serves,
              PoolCore.recycle, List.count_cons, beq_iff_eq, Bool.false_eq_true, and_false,
              decide_false, ↓reduceIte, add_zero, and_true, decide_eq_true_eq]
            push_cast
            omega
        | _ => rfl
    | release h =>
        rw [total_nil, add_zero]
        cases h with
        | reset =>
            obtain ⟨g, p, hr, _⟩ := Release.reset_frame i s
            rw [hr]
            rfl
        | _ => rfl
    | purge h => cases h <;> exact add_zero _
    | ticktock h => cases h <;> exact add_zero _
    | reboot h => cases h <;> exact add_zero _
    | tune h => cases h <;> exact add_zero _
    | clock => exact add_zero _

/-- How often payload `n` was sent to worker `w`. -/
def PoolCore.sent (s : PoolCore) (n w : ℕ) : ℕ :=
  (s.channel w).countP (Message.carries n) + s.past.received.count (n, w)

theorem PoolCore.sent_finish (s : PoolCore) (n v w : ℕ) : (s.finish v).sent n w = s.sent n w := by
  have hch : ((s.finish v).channel w).countP (Message.carries n) =
      (s.channel w).countP (Message.carries n) := by
    rw [channel_finish, List.countP_append]
    split_ifs <;> rfl
  simp only [sent, hch]
  rfl

theorem PoolCore.sent_payload (s : PoolCore) (n v w : ℕ) (p : Payload) :
    (s.send v (.payload p)).sent n w = s.sent n w + if p.id = n ∧ v = w then 1 else 0 := by
  have hch : ((s.send v (.payload p)).channel w).countP (Message.carries n) =
      (s.channel w).countP (Message.carries n) + if p.id = n ∧ v = w then 1 else 0 := by
    rw [channel_send, List.countP_append]
    by_cases hv : v = w
    · simp [hv, Message.carries, List.countP_cons]
    · simp [hv, Ne.symm hv]
  have hrec : (s.send v (.payload p)).past = s.past := rfl
  simp only [sent, hch, hrec]
  omega

theorem Release.sent_reset (i : ℕ) (s : PoolCore) (n w : ℕ) :
    (Release.reset i s).sent n w = s.sent n w := by
  obtain ⟨g, p, hr, _, _, hrec⟩ := Release.reset_frame i s
  have hpast : (Release.reset i s).past.received = s.past.received := by rw [hr, hrec]
  have hch : ((Release.reset i s).channel w).countP (Message.carries n) =
      (s.channel w).countP (Message.carries n) := by
    rw [reset_channel, List.countP_append, List.countP_replicate]
    rfl
  simp only [PoolCore.sent, hch, hpast]

def payloadLedger (n w : ℕ) : Ledger PoolCore Thread :=
  .counting (fun s => s.sent n w) (Thread.handed n w)

theorem payloadLedger_kept (o : Options) (n w : ℕ) :
    (payloadLedger n w).Kept (program o) (blank w) := by
  refine kept_of_steps ?_ ?_
  · intro i c
    cases c <;> rfl
  · intro i s t s' t' new hV h
    cases h with
    | submit h =>
        cases h with
        | spawnNew =>
            by_cases hw : w = s.goWorkerCount
            · subst hw
              have hch : (s.goWorkers s.goWorkerCount).channel = [] := hV rfl
              simp [payloadLedger, Ledger.counting, Thread.handed, PoolCore.sent, PoolCore.channel,
                hch]
            · simp [payloadLedger, Ledger.counting, Thread.handed, PoolCore.sent, PoolCore.channel,
                hw]
        | input =>
            simp only [payloadLedger, Ledger.counting, Thread.handed, Bool.decide_and,
              Int.reduceNeg, PoolCore.sent_payload, Bool.and_eq_true, decide_eq_true_eq, total_nil,
              add_zero, Bool.false_eq_true, ↓reduceIte]
            push_cast
            omega
        | _ => exact add_zero _
    | work h =>
        rw [total_nil, add_zero]
        cases h with
        | @recvPayload v b p rest hc =>
            by_cases hw : v = w
            · subst hw
              simp only [payloadLedger, Ledger.counting, PoolCore.sent, PoolCore.channel,
                Thread.handed, Bool.decide_and, Int.reduceNeg, Function.update_self,
                List.count_cons, beq_iff_eq, Prod.mk.injEq, and_true, Bool.false_eq_true,
                ↓reduceIte, add_zero, hc, List.countP_cons, Message.carries, decide_eq_true_eq]
              push_cast
              omega
            · simp [payloadLedger, Ledger.counting, Thread.handed, PoolCore.sent, PoolCore.channel,
                hw, Ne.symm hw]
        | @recvFinish v b rest hc =>
            by_cases hw : v = w
            · subst hw
              simp [payloadLedger, Ledger.counting, Thread.handed, PoolCore.sent, PoolCore.channel,
                hc, Message.carries]
            · simp [payloadLedger, Ledger.counting, Thread.handed, PoolCore.sent, PoolCore.channel,
                Ne.symm hw]
        | @stamp v b =>
            by_cases hw : v = w
            · subst hw
              simp [payloadLedger, Ledger.counting, Thread.handed, PoolCore.sent, PoolCore.channel]
            · simp [payloadLedger, Ledger.counting, Thread.handed, PoolCore.sent, PoolCore.channel,
                Ne.symm hw]
        | _ => rfl
    | purge h =>
        rw [total_nil, add_zero]
        cases h with
        | finish => simp [payloadLedger, Ledger.counting, Thread.handed, PoolCore.sent_finish]
        | _ => rfl
    | release h =>
        rw [total_nil, add_zero]
        cases h with
        | reset => simp [payloadLedger, Ledger.counting, Thread.handed, Release.sent_reset]
        | _ => rfl
    | ticktock h => cases h <;> exact add_zero _
    | reboot h => cases h <;> exact add_zero _
    | tune h => cases h <;> exact add_zero _
    | clock => exact add_zero _

theorem Thread.background.unplaced {t : Thread} (h : t.background) (n w : ℕ) :
    t.holds w = 0 ∧ t.serves w = false ∧ t.handed n w = false := by
  rcases h with rfl | rfl | rfl <;> exact ⟨rfl, rfl, rfl⟩

theorem Submit.Step.payload {o : Options} {s s' : PoolCore} {t t' : Submit} {new : List Thread}
    (h : Submit.Step o s t s' t' new) : t'.payload = t.payload := by
  cases h <;> rfl

/-- How many places refer to worker `w`: the queue, the cache and the threads. -/
def places (x : Config) (w : ℕ) : ℤ :=
  x.shared.workers.items.count w + x.shared.workerCache.count w +
    total (fun t => t.holds w) x.threads

namespace Run
variable {o : Options} {G : Guard} {x : Config}

/-- A worker that exists is in one place or has one message on the way. -/
theorem places_eq (h : Run o G x) (w : ℕ) :
    places x w + (x.shared.channel w).length = x.shared.existing w := by
  have hbal : (ownLedger w).balance x = 0 := by
    refine (ownLedger_kept o w).balance_eq ?_ ?_ h
    · intro y _ hy t _ hw
      have hthreads := total_nonneg (l := y.threads) (f := (ownLedger w).carried)
        fun t _ => Int.natCast_nonneg _
      simp only [Ledger.balance, ownLedger, PoolCore.existing, hw, lt_irrefl, if_false]
        at hy hthreads
      exact List.eq_nil_of_length_eq_zero (by omega)
    · intro y hy
      have hf := hy.fresh
      have hthreads : total (ownLedger w).carried y.threads = total (fun _ => 0) y.threads :=
        total_congr fun t ht => congrArg Nat.cast ((hf.threads t ht).unplaced 0 w).1
      rw [Ledger.balance, hthreads]
      simp [ownLedger, hf.idle, hf.cache, PoolCore.channel, hf.channel, PoolCore.existing,
        hf.workerCount, total]
  simp only [Ledger.balance, ownLedger] at hbal
  rw [places]
  omega

theorem blank_of_run (h : Run o G x) (w : ℕ) (t : Thread) : blank w x.shared t := by
  intro hw
  have hp := h.places_eq w
  have hthreads := total_nonneg (l := x.threads) (f := fun t : Thread => (t.holds w : ℤ))
    fun t _ => Int.natCast_nonneg _
  simp only [places, PoolCore.existing, hw, lt_irrefl, if_false] at hp
  exact List.eq_nil_of_length_eq_zero (by omega)

/-- A worker that exists is cached or served by one thread. -/
theorem serves_eq (h : Run o G x) (w : ℕ) :
    (x.shared.workerCache.count w : ℤ) + x.threads.countP (Thread.serves w) =
      x.shared.existing w := by
  have hbal : (serveLedger w).balance x = 0 := by
    refine (serveLedger_kept o w).balance_eq (fun _ _ _ _ _ => trivial) ?_ h
    intro y hy
    have hf := hy.fresh
    have hthreads : total (serveLedger w).carried y.threads = total (fun _ => 0) y.threads :=
      total_congr fun t ht => by simp [serveLedger, ((hf.threads t ht).unplaced 0 w).2.1]
    rw [Ledger.balance, hthreads]
    simp [serveLedger, hf.cache, PoolCore.existing, hf.workerCount, total]
  simp only [Ledger.balance, serveLedger, total_indicator] at hbal
  omega

theorem sent_eq (h : Run o G x) (n w : ℕ) :
    x.shared.sent n w = x.threads.countP (Thread.handed n w) := by
  have heq : (x.shared.sent n w : ℤ) = x.threads.countP (Thread.handed n w) := by
    refine (payloadLedger_kept o n w).count_eq (fun y hy _ t _ => Run.blank_of_run hy w t) ?_ h
    intro y hy
    have hf := hy.fresh
    refine ⟨?_, fun t ht => ((hf.threads t ht).unplaced n w).2.2⟩
    simp [PoolCore.sent, PoolCore.channel, hf.channel, hf.received]
  exact_mod_cast heq

/-- A payload is named by the thread that submits it. -/
theorem payload_id (h : Run o G x) {i : ℕ} {t : Submit} (ht : x.threads[i]? = some (.submit t)) :
    t.payload.id = i := by
  have hall := Run.invariant_newborn (J := fun _ => True)
    (φ := fun _ i t => ∀ u, t = Thread.submit u → u.payload.id = i) (fun _ _ => trivial) ?_ ?_ ?_ h
  · exact hall.2 i _ ht t rfl
  · intro s i t hb u hu
    rcases hb with (rfl | rfl | rfl) | ⟨w, rfl⟩ <;> cases hu
  · intro y c _ _ _ u hu
    cases c with
    | submit stop =>
        cases hu
        rfl
    | _ => cases hu
  · intro y i a t s' t' new _ _ hall _ ht hs
    refine ⟨trivial, ?_, fun j u _ hu => hall j u hu⟩
    rintro u rfl
    cases hs with
    | submit hs => exact hs.payload ▸ hall i _ ht _ rfl

end Run

end AntsPool
