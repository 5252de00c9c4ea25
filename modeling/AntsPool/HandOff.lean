import AntsPool.Ownership

/-!
# Exactly-once hand-off

What the three ledgers say about one configuration: a worker has one owner, and
a payload that a call handed over is either the only message of a worker whose
thread is about to receive it, or was received once. The second half says where
a `Finish` can come from.
-/
namespace AntsPool
open Interleaving ListTotals

/-- Payload `n` was handed to worker `w` and to no other, and exactly once: it is
the message that the worker's thread is about to receive, or one thread has
received it. -/
structure Delivered (x : Config) (n w : ℕ) : Prop where
  elsewhere : ∀ v, v ≠ w → x.shared.sent n v = 0
  once : x.shared.sent n w = 1
  pending : x.shared.past.received.count (n, w) = 0 →
    (x.shared.channel w).length = 1 ∧ ∃ t, Thread.work t ∈ x.threads ∧ t.worker = w ∧ t.pc = .recv

structure HandOff (x : Config) : Prop where
  /-- A worker is in at most one place, and there at most once. -/
  place : ∀ w, places x w ≤ 1
  channel : ∀ w, (x.shared.channel w).length ≤ 1
  /-- No thread that has received a message leaves another one behind. -/
  owned : ∀ t, Thread.work t ∈ x.threads → t.pc.owns = true → x.shared.channel t.worker = []
  server : ∀ w, x.threads.countP (Thread.serves w) ≤ 1
  delivered : ∀ i p b w, x.threads[i]? = some (.submit ⟨p, b, .ok w⟩) → p.id = i ∧ Delivered x i w
  undelivered : ∀ n w, (∀ p b, x.threads[n]? ≠ some (.submit ⟨p, b, .ok w⟩)) → x.shared.sent n w = 0

namespace PoolCore

theorem existing_le_one (s : PoolCore) (w : ℕ) : s.existing w ≤ 1 := by
  unfold existing
  split <;> omega

end PoolCore

namespace Thread

theorem handed_iff {n w : ℕ} {t : Thread} :
    t.handed n w = true ↔ ∃ p b, t = .submit ⟨p, b, .ok w⟩ ∧ p.id = n := by
  constructor
  · intro h
    cases t with
    | submit t =>
        obtain ⟨p, b, pc⟩ := t
        cases pc with
        | ok v =>
            simp only [handed, Bool.decide_and, Bool.and_eq_true, decide_eq_true_eq] at h
            exact ⟨p, b, by rw [h.2], h.1⟩
        | _ => cases h
    | _ => cases h
  · rintro ⟨p, b, rfl, rfl⟩
    simp [handed]

end Thread

theorem places_nonneg (x : Config) (w : ℕ) : 0 ≤ places x w := by
  have hthreads := total_nonneg (l := x.threads) (f := fun t : Thread => (t.holds w : ℤ))
    fun t _ => Int.natCast_nonneg _
  unfold places
  omega

/-- What a thread holds is part of the worker's places. -/
theorem holds_le_places {x : Config} {t : Thread} (w : ℕ) (ht : t ∈ x.threads) :
    (t.holds w : ℤ) ≤ places x w := by
  have hle := le_total (f := fun t : Thread => (t.holds w : ℤ)) (fun _ => Int.natCast_nonneg _) ht
  unfold places
  omega

namespace Run
variable {o : Options} {G : Guard} {x : Config}

theorem place_le (h : Run o G x) (w : ℕ) : places x w + (x.shared.channel w).length ≤ 1 := by
  have heq := h.places_eq w
  have hle := x.shared.existing_le_one w
  omega

theorem owned (h : Run o G x) {t : Work} (ht : Thread.work t ∈ x.threads)
    (hpc : t.pc.owns = true) : x.shared.channel t.worker = [] := by
  have hhold := holds_le_places t.worker ht
  simp only [Thread.holds, hpc, and_self, if_true] at hhold
  have hle := h.place_le t.worker
  exact List.eq_nil_of_length_eq_zero (by omega)

theorem server_le (h : Run o G x) (w : ℕ) : x.threads.countP (Thread.serves w) ≤ 1 := by
  have heq := h.serves_eq w
  have hle := x.shared.existing_le_one w
  omega

/-- A message is always about to be received: its worker is in no place, so its
thread is back at the receive. -/
theorem served (h : Run o G x) {w : ℕ} (hw : x.shared.channel w ≠ []) :
    ∃ t, Thread.work t ∈ x.threads ∧ t.worker = w ∧ t.pc = .recv := by
  have hlen : 0 < (x.shared.channel w).length := List.length_pos_iff.mpr hw
  have heq := h.places_eq w
  have hle := x.shared.existing_le_one w
  have hplaces := places_nonneg x w
  have hcache : (x.shared.workerCache.count w : ℤ) ≤ places x w := by
    have hthreads := total_nonneg (l := x.threads) (f := fun t : Thread => (t.holds w : ℤ))
      fun t _ => Int.natCast_nonneg _
    unfold places
    omega
  have hserve := h.serves_eq w
  have hcount : 0 < x.threads.countP (Thread.serves w) := by omega
  obtain ⟨t, ht, hs⟩ := List.countP_pos_iff.mp hcount
  cases t with
  | submit t =>
      obtain ⟨p, b, pc⟩ := t
      cases pc with
      | run v =>
          -- a caller still has the worker, so nothing is in the channel
          have hhold := holds_le_places w ht
          have hplace := h.place_le w
          simp only [Thread.holds, of_decide_eq_true hs, if_true] at hhold
          omega
      | _ => cases hs
  | work t =>
      simp only [Thread.serves, Bool.decide_and, Bool.and_eq_true, decide_eq_true_eq,
        Bool.decide_eq_true] at hs
      refine ⟨t, ht, hs.1, ?_⟩
      obtain ⟨v, b, pc⟩ := t
      cases pc with
      | recv => rfl
      | report | signal | returned | unwound => cases hs.2
      | _ => exact (hw (hs.1 ▸ h.owned ht rfl)).elim
  | _ => cases hs

theorem sent_le (h : Run o G x) (n w : ℕ)
    (hn : ∀ p b, x.threads[n]? ≠ some (.submit ⟨p, b, .ok w⟩)) : x.shared.sent n w = 0 := by
  rw [h.sent_eq n w]
  refine List.countP_eq_zero.mpr fun t ht hhand => ?_
  obtain ⟨p, b, rfl, hid⟩ := Thread.handed_iff.mp hhand
  obtain ⟨j, hj⟩ := List.mem_iff_getElem?.mp ht
  have hj' : p.id = j := h.payload_id hj
  exact hn p b (by rw [← hid, hj', hj])

/-- The call that handed a payload over is the only one to have sent it. -/
theorem sent_once (h : Run o G x) {i : ℕ} {p : Payload} {b : Bool} {w : ℕ}
    (ht : x.threads[i]? = some (.submit ⟨p, b, .ok w⟩)) : x.shared.sent i w = 1 := by
  have hid : p.id = i := h.payload_id ht
  have hself : (Thread.submit ⟨p, b, .ok w⟩).handed i w = true := by simp [Thread.handed, hid]
  have hone := total_eq_single (f := fun t : Thread => if t.handed i w then 1 else 0) ht
    fun j u hj hu => ?_
  · simp only [total_indicator, hself, if_true] at hone
    rw [h.sent_eq i w]
    exact_mod_cast hone
  · rw [if_neg]
    intro hhand
    obtain ⟨q, c, rfl, hq⟩ := Thread.handed_iff.mp hhand
    exact hj ((h.payload_id hu).symm.trans hq)

theorem handOff (h : Run o G x) : HandOff x where
  place w := by
    have := h.place_le w
    omega
  channel w := by
    have hle := h.place_le w
    have hplaces := places_nonneg x w
    omega
  owned _ := h.owned
  server := h.server_le
  delivered i p b w ht := by
    refine ⟨h.payload_id ht, fun v hv => h.sent_le i v ?_, h.sent_once ht, fun hrec => ?_⟩
    · intro q c hq
      have := ht.symm.trans hq
      simp only [Option.some.injEq, Thread.submit.injEq, Submit.mk.injEq, SubmitPc.ok.injEq] at this
      exact hv this.2.2.symm
    · have hsent := h.sent_once ht
      have hle := h.place_le w
      have hplaces := places_nonneg x w
      have hcount := List.countP_le_length (p := Message.carries i) (l := x.shared.channel w)
      simp only [PoolCore.sent, hrec] at hsent
      refine ⟨by omega, h.served fun hnil => ?_⟩
      rw [hnil] at hsent
      cases hsent
  undelivered n w := h.sent_le n w

end Run

/-- The `Finish` messages on their way to worker `w`. -/
def finishes (x : Config) (w : ℕ) : ℕ := (x.shared.channel w).count .finish

/-- Where the `Finish` messages of a move come from. A worker is sent one by the
reset that takes it out of the queue, or by the scavenger from its stale list; and
a stale list only ever shrinks once a refresh has taken its workers out of the
queue. -/
structure FinishTaken (x y : Config) : Prop where
  sender : ∀ w, finishes x w < finishes y w →
    (w ∈ x.shared.workers.items ∧ y.shared.workers.items = [] ∧
      ∃ m p k, Thread.release ⟨m, p, k, .reset⟩ ∈ x.threads) ∨
    ∃ c rest b, Thread.purge (.finish c (w :: rest) b) ∈ x.threads
  stale : ∀ (i : ℕ) c stale b, y.threads[i]? = some (.purge (.finish c stale b)) →
    (∃ old, x.threads[i]? = some (.purge (.finish c old b)) ∧ stale <:+ old) ∨
    (x.threads[i]? = some (.purge (.refresh c)) ∧
      ∀ w ∈ stale, w ∈ x.shared.workers.items ∧ w ∉ y.shared.workers.items)

theorem Work.Step.finishes {s s' : PoolCore} {t t' : Work} (h : Work.Step s t s' t') (w : ℕ) :
    (s'.channel w).count .finish ≤ (s.channel w).count .finish := by
  cases h with
  | @recvPayload v b p rest hc =>
      by_cases hw : v = w
      · subst hw
        simp [PoolCore.channel, hc]
      · simp [PoolCore.channel, Ne.symm hw]
  | @recvFinish v b rest hc =>
      by_cases hw : v = w
      · subst hw
        simp [PoolCore.channel, hc]
      · simp [PoolCore.channel, Ne.symm hw]
  | @stamp v b =>
      by_cases hw : v = w
      · subst hw
        simp [PoolCore.channel]
      · simp [PoolCore.channel, Ne.symm hw]
  | _ => exact le_rfl

theorem Submit.Step.finishes {o : Options} {s s' : PoolCore} {t t' : Submit} {new : List Thread}
    (h : Submit.Step o s t s' t' new) (w : ℕ) :
    (s'.channel w).count .finish ≤ (s.channel w).count .finish := by
  cases h with
  | spawnNew =>
      by_cases hw : w = s.goWorkerCount
      · subst hw
        simp [PoolCore.channel]
      · simp [PoolCore.channel, hw]
  | @input p b v =>
      rw [PoolCore.channel_send, List.count_append]
      split_ifs <;> simp
  | _ => exact le_rfl

/-- A step that sends `w` a `Finish` is a reset with `w` in the queue, or the
scavenger's with `w` next in its stale list. -/
theorem Thread.Step.sender {o : Options} {i : ℕ} {s s' : PoolCore} {t t' : Thread}
    {new : List Thread} (h : Thread.Step o i s t s' t' new) {w : ℕ}
    (hw : (s.channel w).count .finish < (s'.channel w).count .finish) :
    (w ∈ s.workers.items ∧ s'.workers.items = [] ∧ ∃ m p k, t = .release ⟨m, p, k, .reset⟩) ∨
    ∃ c rest b, t = .purge (.finish c (w :: rest) b) := by
  cases h with
  | submit h => exact absurd hw (h.finishes w).not_gt
  | work h => exact absurd hw (h.finishes w).not_gt
  | purge h =>
      cases h with
      | @finish c v stale b =>
          rw [PoolCore.channel_finish, List.count_append] at hw
          by_cases hv : w = v
          · exact .inr ⟨c, stale, b, by rw [hv]⟩
          · simp [hv] at hw
      | _ => exact absurd hw (lt_irrefl _)
  | release h =>
      cases h with
      | reset =>
          rw [Release.reset_channel, List.count_append] at hw
          refine .inl ⟨?_, Release.reset_items i s, _, _, _, rfl⟩
          by_contra hmem
          simp [List.count_eq_zero.mpr hmem] at hw
      | _ => exact absurd hw (lt_irrefl _)
  | ticktock h => cases h <;> exact absurd hw (lt_irrefl _)
  | reboot h => cases h <;> exact absurd hw (lt_irrefl _)
  | tune h => cases h <;> exact absurd hw (lt_irrefl _)
  | clock => exact absurd hw (lt_irrefl _)

/-- A stale list comes out of the queue by a refresh and then shrinks. -/
theorem Purge.Step.stale {o : Options} {s s' : PoolCore} {t : Purge} {c : ℕ} {stale : List ℕ}
    {b : Bool} (h : Purge.Step o s t s' (.finish c stale b)) :
    (∃ v, t = .finish c (v :: stale) b) ∨
      (t = .refresh c ∧ s.workers.items.Perm (stale ++ s'.workers.items)) := by
  cases h with
  | finish => exact .inl ⟨_, rfl⟩
  | refresh hl hr hb =>
      have hperm := s.workers.refresh_perm s.stamp s.clock o.expiryDuration
      rw [hr] at hperm
      exact .inr ⟨rfl, hperm⟩

namespace Run
variable {o : Options} {G : Guard} {x y : Config}

/-- No worker is in the queue twice. -/
theorem queue_nodup (h : Run o G x) : x.shared.workers.items.Nodup := by
  refine List.nodup_iff_count.mpr fun w => ?_
  have hle := h.place_le w
  have hthreads := total_nonneg (l := x.threads) (f := fun t : Thread => (t.holds w : ℤ))
    fun t _ => Int.natCast_nonneg _
  unfold places at hle
  omega

theorem finishTaken (h : Run o G x) (m : Move) (hm : (program o).fire x m = some y) :
    FinishTaken x y := by
  cases m with
  | call c =>
      cases hm
      refine ⟨fun w hw => absurd hw (lt_irrefl _), fun i k stale b hi => ?_⟩
      refine .inl ⟨stale, ?_, List.suffix_rfl⟩
      rcases getElem?_concat_cases hi with hi | ⟨_, hmem⟩
      · exact hi
      · cases c <;> cases hmem
  | step j a =>
      obtain ⟨t, ⟨s', t', new⟩, ht, hr, rfl⟩ := Program.fire_step _ hm
      have hs := program_step hr
      simp only at hs
      have hmem := List.mem_of_getElem? ht
      refine ⟨fun w hw => ?_, fun i c stale b hi => ?_⟩
      · rcases hs.sender hw with ⟨hin, hempty, m, p, k, rfl⟩ | ⟨c, rest, b, rfl⟩
        · exact .inl ⟨hin, hempty, m, p, k, hmem⟩
        · exact .inr ⟨c, rest, b, hmem⟩
      · rcases Config.getElem?_after ht hi with ⟨rfl, hself⟩ | ⟨_, hold⟩ | ⟨_, hnew⟩
        · simp only at hself
          subst hself
          cases hs with
          | purge hs =>
              rcases hs.stale with ⟨v, rfl⟩ | ⟨rfl, hperm⟩
              · exact .inl ⟨v :: stale, ht, List.suffix_cons v stale⟩
              · have hnodup := hperm.nodup_iff.mp h.queue_nodup
                have hdisj := (List.nodup_append.mp hnodup).2.2
                refine .inr ⟨ht, fun w hw => ⟨hperm.mem_iff.mpr ?_, fun hin => ?_⟩⟩
                · exact List.mem_append_left _ hw
                · exact hdisj w hw w hin rfl
        · exact .inl ⟨stale, hold, List.suffix_rfl⟩
        · rcases hs.new_cases hnew with ⟨w, hw⟩ | hw | hw <;> cases hw

end Run

/-- Every worker is in at most one place, a channel holds at most one message, no
thread leaves a message behind and every payload of a successful call is waiting
for its worker's thread or was received once; only workers taken out of the queue
by a refresh or a reset are sent a `Finish`. -/
theorem exactly_once_handOff {o : Options} {x : Config} (h : Run o anyMove x) :
    HandOff x ∧ ∀ m y, (program o).fire x m = some y → FinishTaken x y :=
  ⟨h.handOff, fun m _ hm => h.finishTaken m hm⟩

/-- One payload handed over and received. -/
theorem exactly_once_handOff_busy :
    HandOff busyPool ∧ busyPool.shared.past.received = [(2, 0)] ∧ busyPool.shared.sent 2 0 = 1 :=
  ⟨(exactly_once_handOff busyPool_run).1, by decide, by decide⟩

end AntsPool
