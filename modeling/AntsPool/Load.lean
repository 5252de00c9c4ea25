import AntsPool.ClosedQueue
import AntsPool.Dispatch

/-!
# The load of a pool

A payload that a pool has accepted and not finished is in the channel of a running
worker or is being run by one, and no worker has two of them. So the load is what
`running` and `waiting` say but for the running workers that have no payload.
-/
namespace AntsPool
open Interleaving ListTotals

def Message.isPayload : Message → Bool
  | .payload _ => true
  | .finish => false

def WorkerPc.calls : WorkerPc → Bool
  | .call _ => true
  | _ => false

namespace Thread

/-- A thread that runs payload `n`. -/
def executes (n : ℕ) : Thread → Bool
  | .work ⟨_, _, .call p⟩ => p.id = n
  | _ => false

/-- A call whose payload has not been received, or is being run. -/
def outstanding (x : Config) : Thread → Bool
  | .submit ⟨p, _, .ok w⟩ =>
      decide ((p.id, w) ∉ x.shared.past.received) || x.threads.any (executes p.id)
  | _ => false

/-- A running worker that has been sent a payload or runs one. -/
def tasked (s : PoolCore) : Thread → Bool
  | .work t => t.pc.counted && (t.pc.calls || (s.channel t.worker).any Message.isPayload)
  | _ => false

/-- A running worker without a payload. -/
def spare (s : PoolCore) (t : Thread) : Bool := t.counted && !t.tasked s

end Thread

/-- The payloads that the pool has accepted and not finished, and the callers waiting
on it. -/
def pendingTasks (x : Config) : ℤ := x.threads.countP (Thread.outstanding x) + x.shared.waiting

def spareWorkers (x : Config) : ℤ := x.threads.countP (Thread.spare x.shared)

/-- The spare workers beyond the callers that wait for one. -/
def surplus (x : Config) : ℤ := spareWorkers x - x.shared.waiting

/-- The worker of a call that has handed its payload over, and of a worker's thread. -/
def Thread.workerOf : Thread → ℕ
  | .submit ⟨_, _, .ok w⟩ => w
  | .work t => t.worker
  | _ => 0

theorem Thread.counted_of_tasked {s : PoolCore} {t : Thread} (h : t.tasked s = true) :
    t.counted = true := by
  cases t with
  | work t => exact (Bool.and_eq_true_iff.mp h).1
  | _ => cases h

theorem Thread.Step.received_subset {o : Options} {i : ℕ} {s s' : PoolCore} {t t' : Thread}
    {new : List Thread} (h : Thread.Step o i s t s' t' new) :
    s.past.received ⊆ s'.past.received := by
  cases h with
  | work h =>
      cases h with
      | recvPayload => exact List.subset_cons_self _ _
      | _ => exact List.Subset.refl _
  | release h =>
      cases h with
      | reset => rw [Release.reset_past]; exact List.Subset.refl _
      | _ => exact List.Subset.refl _
  | submit h => cases h <;> exact List.Subset.refl _
  | purge h => cases h <;> exact List.Subset.refl _
  | ticktock h => cases h <;> exact List.Subset.refl _
  | reboot h => cases h <;> exact List.Subset.refl _
  | tune h => cases h <;> exact List.Subset.refl _
  | clock => exact List.Subset.refl _

namespace Run
variable {o : Options} {G : Guard} {x : Config}

/-- The payload that a worker runs has been received by it. -/
theorem received_of_call (h : Run o G x) {w : ℕ} {b : Bool} {p : Payload}
    (ht : Thread.work ⟨w, b, .call p⟩ ∈ x.threads) : (p.id, w) ∈ x.shared.past.received := by
  have hall := Run.invariant_newborn (J := fun _ => True)
    (φ := fun s _ t => ∀ w b p, t = Thread.work ⟨w, b, .call p⟩ → (p.id, w) ∈ s.past.received)
    (fun _ _ => trivial) ?_ ?_ ?_ h
  · obtain ⟨i, hi⟩ := List.mem_iff_getElem?.mp ht
    exact hall.2 i _ hi w b p rfl
  · rintro s i t hb w b p rfl
    rcases hb with (hb | hb | hb) | ⟨w, hb⟩ <;> cases hb
  · rintro y c _ _ _ w b p hc
    cases c <;> cases hc
  · intro y i a t s' t' new _ _ hall _ ht hs
    refine ⟨trivial, ?_, fun j u _ hu w b p hp => hs.received_subset (hall j u hu w b p hp)⟩
    rintro w b p rfl
    cases hs with
    | work hs =>
        cases hs with
        | recvPayload => exact List.mem_cons_self

/-- A payload is submitted by one call. -/
theorem call_unique (h : Run o G x) {t u : Submit} (ht : Thread.submit t ∈ x.threads)
    (hu : Thread.submit u ∈ x.threads) (hid : t.payload.id = u.payload.id) : t = u := by
  obtain ⟨i, hi⟩ := List.mem_iff_getElem?.mp ht
  obtain ⟨j, hj⟩ := List.mem_iff_getElem?.mp hu
  obtain rfl : i = j := (h.payload_id hi).symm.trans (hid.trans (h.payload_id hj))
  exact Thread.submit.inj (Option.some.inj (hi.symm.trans hj))

/-- A payload of which a call says that it was handed to a worker, and no other. -/
theorem sent_of_ok (h : Run o G x) {t : Thread} {p : Payload} {b : Bool} {w : ℕ}
    (ht : t ∈ x.threads) (hok : t = .submit ⟨p, b, .ok w⟩) : x.shared.sent p.id w = 1 := by
  subst hok
  obtain ⟨i, hi⟩ := List.mem_iff_getElem?.mp ht
  have hid : p.id = i := h.payload_id hi
  exact hid ▸ h.sent_once hi

end Run

/-- Payload `n` is in the channel of worker `w` or is run by it. -/
def Busy (x : Config) (n w : ℕ) : Prop :=
  0 < (x.shared.channel w).countP (Message.carries n) ∨
    ∃ b p, Thread.work ⟨w, b, .call p⟩ ∈ x.threads ∧ p.id = n

theorem Thread.executes_iff {n : ℕ} {t : Thread} :
    t.executes n = true ↔ ∃ w b p, t = .work ⟨w, b, .call p⟩ ∧ p.id = n := by
  constructor
  · intro h
    cases t with
    | work t =>
        obtain ⟨w, b, pc⟩ := t
        cases pc with
        | call p => exact ⟨w, b, p, rfl, of_decide_eq_true h⟩
        | _ => cases h
    | _ => cases h
  · rintro ⟨w, b, p, rfl, rfl⟩
    exact decide_eq_true rfl

theorem WorkerPc.serves_of_counted {pc : WorkerPc} (h : pc.counted = true) : pc.serves = true := by
  cases pc <;> first | rfl | cases h

theorem busy_of_tasked {x : Config} {t : Thread} (ht : t ∈ x.threads)
    (htask : t.tasked x.shared = true) : ∃ u n, t = .work u ∧ Busy x n u.worker := by
  cases t with
  | work t =>
      obtain ⟨w, b, pc⟩ := t
      rcases Bool.or_eq_true_iff.mp (Bool.and_eq_true_iff.mp htask).2 with hcalls | hchannel
      · cases pc with
        | call p => exact ⟨_, p.id, rfl, .inr ⟨b, p, ht, rfl⟩⟩
        | _ => cases hcalls
      · obtain ⟨m, hm, hpayload⟩ := List.any_eq_true.mp hchannel
        cases m with
        | payload p =>
            exact ⟨_, p.id, rfl, .inl (List.countP_pos_iff.mpr ⟨_, hm, decide_eq_true rfl⟩)⟩
        | finish => cases hpayload
  | _ => cases htask

namespace Run
variable {o : Options} {G : Guard} {x : Config}

theorem sent_pos_of_busy (h : Run o G x) {n w : ℕ} (hb : Busy x n w) : 0 < x.shared.sent n w := by
  unfold PoolCore.sent
  rcases hb with hchannel | ⟨b, p, hp, rfl⟩
  · omega
  · have hrec := List.count_pos_iff.mpr (h.received_of_call hp)
    omega

/-- A busy worker has one payload. -/
theorem busy_unique (h : Run o G x) {n m w : ℕ} (hn : Busy x n w) (hm : Busy x m w) : n = m := by
  rcases hn with hn | ⟨b, p, hp, rfl⟩ <;> rcases hm with hm | ⟨c, q, hq, rfl⟩
  · obtain ⟨e, he, hcn⟩ := List.countP_pos_iff.mp hn
    obtain ⟨f, hf, hcm⟩ := List.countP_pos_iff.mp hm
    have heq := eq_of_countP_le_one (p := fun _ => true)
      ((List.countP_le_length).trans (h.handOff.channel w)) he hf rfl rfl
    subst heq
    cases e with
    | payload p => exact (of_decide_eq_true hcn).symm.trans (of_decide_eq_true hcm)
    | finish => cases hcn
  · have hnil : x.shared.channel w = [] := h.owned hq rfl
    rw [hnil] at hn
    cases hn
  · have hnil : x.shared.channel w = [] := h.owned hp rfl
    rw [hnil] at hm
    cases hm
  · have heq := eq_of_countP_le_one (h.server_le w) hp hq (by simp [Thread.serves, WorkerPc.serves])
      (by simp [Thread.serves, WorkerPc.serves])
    cases heq
    rfl

theorem outstanding_of_busy (h : Run o G x) {n w : ℕ} (hb : Busy x n w) :
    ∃ p b, Thread.submit ⟨p, b, .ok w⟩ ∈ x.threads ∧ p.id = n ∧
      (Thread.submit ⟨p, b, .ok w⟩).outstanding x = true := by
  have hpos := h.sent_pos_of_busy hb
  rw [h.sent_eq] at hpos
  obtain ⟨t, ht, hhanded⟩ := List.countP_pos_iff.mp hpos
  obtain ⟨p, b, rfl, rfl⟩ := Thread.handed_iff.mp hhanded
  refine ⟨p, b, ht, rfl, Bool.or_eq_true_iff.mpr ?_⟩
  rcases hb with hchannel | ⟨c, q, hq, hid⟩
  · have hsent := h.sent_of_ok ht rfl
    unfold PoolCore.sent at hsent
    refine .inl (decide_eq_true (List.count_eq_zero.mp ?_))
    omega
  · exact .inr (List.any_eq_true.mpr ⟨_, hq, Thread.executes_iff.mpr ⟨w, c, q, rfl, hid⟩⟩)

theorem busy_of_outstanding (h : Run o G x) {t : Thread} (ht : t ∈ x.threads)
    (hu : t.outstanding x = true) :
    ∃ p b w, t = .submit ⟨p, b, .ok w⟩ ∧ Busy x p.id w := by
  cases t with
  | submit t =>
      obtain ⟨p, b, pc⟩ := t
      cases pc with
      | ok w =>
          refine ⟨p, b, w, rfl, ?_⟩
          have hsent := h.sent_of_ok ht rfl
          rcases Bool.or_eq_true_iff.mp hu with hrec | hexec
          · have hzero := List.count_eq_zero.mpr (of_decide_eq_true hrec)
            unfold PoolCore.sent at hsent
            exact .inl (by omega)
          · obtain ⟨u, hu, hexec⟩ := List.any_eq_true.mp hexec
            obtain ⟨v, c, q, rfl, hq⟩ := Thread.executes_iff.mp hexec
            -- the worker that runs the payload is the one of its call
            obtain ⟨p', b', ht', hid, _⟩ := h.outstanding_of_busy (.inr ⟨c, q, hu, hq⟩)
            cases h.call_unique ht ht' hid.symm
            exact .inr ⟨c, q, hu, hq⟩
      | _ => cases hu
  | _ => cases hu

theorem tasked_of_busy (h : Run o G x) {n w : ℕ} (hb : Busy x n w) :
    ∃ u, Thread.work u ∈ x.threads ∧ u.worker = w ∧ (Thread.work u).tasked x.shared = true := by
  rcases hb with hchannel | ⟨b, p, hp, _⟩
  · obtain ⟨m, hm, hcarries⟩ := List.countP_pos_iff.mp hchannel
    obtain ⟨u, hu, rfl, hpc⟩ := h.served (List.ne_nil_of_mem hm)
    refine ⟨u, hu, rfl, Bool.and_eq_true_iff.mpr ⟨by rw [hpc]; rfl, Bool.or_eq_true_iff.mpr ?_⟩⟩
    refine .inr (List.any_eq_true.mpr ⟨m, hm, ?_⟩)
    cases m with
    | payload p => rfl
    | finish => cases hcarries
  · exact ⟨_, hp, rfl, rfl⟩

/-- As many payloads are unfinished as workers have one. -/
theorem outstanding_eq_tasked (h : Run o G x) :
    x.threads.countP (Thread.outstanding x) = x.threads.countP (Thread.tasked x.shared) := by
  apply le_antisymm
  · refine countP_le_of_key (f := Thread.workerOf) ?_ ?_
    · intro t ht hu
      obtain ⟨p, b, w, rfl, hb⟩ := h.busy_of_outstanding ht hu
      rw [← h.sent_of_ok ht rfl, h.sent_eq]
      refine List.countP_mono_left fun v hv hkey => ?_
      obtain ⟨hw, huv⟩ := Bool.and_eq_true_iff.mp hkey
      obtain ⟨q, c, v', rfl, hb'⟩ := h.busy_of_outstanding hv huv
      have hworker : v' = w := beq_iff_eq.mp hw
      subst hworker
      exact Thread.handed_iff.mpr ⟨q, c, rfl, h.busy_unique hb' hb⟩
    · intro t ht hu
      obtain ⟨p, b, w, rfl, hb⟩ := h.busy_of_outstanding ht hu
      obtain ⟨u, hmem, rfl, htask⟩ := h.tasked_of_busy hb
      exact ⟨_, hmem, htask, rfl⟩
  · refine countP_le_of_key (f := Thread.workerOf) ?_ ?_
    · intro t ht htask
      refine le_trans (List.countP_mono_left fun v hv hkey => ?_) (h.server_le t.workerOf)
      obtain ⟨hw, htv⟩ := Bool.and_eq_true_iff.mp hkey
      obtain ⟨u, n, rfl, _⟩ := busy_of_tasked hv htv
      have hcounted := (Bool.and_eq_true_iff.mp htv).1
      exact decide_eq_true ⟨beq_iff_eq.mp hw, WorkerPc.serves_of_counted hcounted⟩
    · intro t ht htask
      obtain ⟨u, n, rfl, hb⟩ := busy_of_tasked ht htask
      obtain ⟨p, b, hmem, _, hu⟩ := h.outstanding_of_busy hb
      exact ⟨_, hmem, hu, rfl⟩

/-- The load of a pool is what `running` says but for the surplus. -/
theorem pendingTasks_eq (h : Run o G x) : pendingTasks x = x.shared.running - surplus x := by
  have hspare := countP_and_not (p := Thread.counted) (q := Thread.tasked x.shared) x.threads
    fun _ _ => Thread.counted_of_tasked
  have hrunning := h.running_eq
  rw [pendingTasks, surplus, spareWorkers, h.outstanding_eq_tasked]
  unfold Thread.spare
  omega

end Run

namespace MultiPool

/-- A dispatch under `LEAST_TASKS` that runs alone turns to the first member with the
fewest running workers. -/
theorem leastRunning_of_deliver {o : Options} {G : Guard} {x y : State} (hx : Run o G x)
    (hlbs : x.shared.head.lbs = leastTasks) {n : Bool}
    (hy : (program o).Reach (fun z => z = dispatched x n) (alone x.threads.length) y) {t : Dispatch}
    (ht : y.threads[x.threads.length]? = some (.client (.dispatch t))) {k : ℕ}
    (hk : t.pc = .deliver k) : leastRunning x.shared.members = some k := by
  obtain ⟨_, t', ht', hal⟩ := alone_run hx.shape.1 hx.shape.2 hy
  cases ht.symm.trans ht'
  obtain ⟨n, f, l, pc⟩ := t
  cases hk
  have hne : x.shared.head.lbs ≠ roundRobin := by
    rw [hlbs]
    decide
  cases hal with
  | deliver _ hc =>
      cases hc with
      | rotation h => exact (hne h).elim
      | scanned _ hk => exact hk
  | blocking _ hoff =>
      cases hoff with
      | fallback h => exact (hne h).elim

/-- Under `LEAST_TASKS` a dispatch turns to the first member with the fewest running
workers, and that one has the fewest pending tasks exactly when no member leads it by more
surplus than by running workers. -/
theorem least_running_chosen {o : Options} {G : Guard} {x y : State} (hx : Run o G x)
    (hlbs : x.shared.head.lbs = leastTasks) {n : Bool}
    (hy : (program o).Reach (fun z => z = dispatched x n) (alone x.threads.length) y) {t : Dispatch}
    (ht : y.threads[x.threads.length]? = some (.client (.dispatch t))) {k : ℕ}
    (hk : t.pc = .deliver k) :
    ∃ c, x.shared.members[k]? = some c ∧
      (∀ d ∈ x.shared.members, c.shared.running ≤ d.shared.running) ∧
      ∀ d ∈ x.shared.members, pendingTasks c ≤ pendingTasks d ↔
        surplus d - surplus c ≤ d.shared.running - c.shared.running := by
  have hpending : ∀ d ∈ x.shared.members, pendingTasks d = d.shared.running - surplus d := by
    intro d hd
    obtain ⟨j, hj⟩ := List.mem_iff_getElem?.mp hd
    exact (hx.member_run hj).pendingTasks_eq
  obtain ⟨v, hv, hleast⟩ :=
    LeastScan.least_of_minIdxOn? (leastRunning_of_deliver hx hlbs hy ht hk)
  rw [views, List.getElem?_map] at hv
  obtain ⟨c, hc, rfl⟩ := Option.map_eq_some_iff.mp hv
  refine ⟨c, hc, fun d hd => hleast _ (List.mem_map_of_mem hd), fun d hd => ?_⟩
  rw [hpending d hd, hpending c (List.mem_of_getElem? hc)]
  omega

/-- Under `LEAST_TASKS` a dispatch turns to a member with the fewest pending tasks when a
member with as many running workers as another has no larger surplus. -/
theorem fewest_pending_of_surplus {o : Options} {G : Guard} {x y : State} (hx : Run o G x)
    (hlbs : x.shared.head.lbs = leastTasks) {n : Bool}
    (hy : (program o).Reach (fun z => z = dispatched x n) (alone x.threads.length) y) {t : Dispatch}
    (ht : y.threads[x.threads.length]? = some (.client (.dispatch t))) {k : ℕ}
    (hk : t.pc = .deliver k)
    (hsurplus : ∀ d ∈ x.shared.members, ∀ e ∈ x.shared.members,
      d.shared.running ≤ e.shared.running → surplus e ≤ surplus d) :
    ∃ c, x.shared.members[k]? = some c ∧
      ∀ d ∈ x.shared.members, pendingTasks c ≤ pendingTasks d := by
  obtain ⟨c, hc, hleast, hpending⟩ := least_running_chosen hx hlbs hy ht hk
  refine ⟨c, hc, fun d hd => (hpending d hd).mpr ?_⟩
  have hle := hleast d hd
  have hsur := hsurplus c (List.mem_of_getElem? hc) d hd hle
  omega

/-! Two pools under `LEAST_TASKS`: the worker of the first one runs a payload. -/

def leastPools : State :=
  ((new 2 leastTasks fun _ => some (.ok smallPool)).get rfl).toOption.get rfl

theorem leastPools_starts : Starts smallOptions leastPools := by
  refine ⟨2, leastTasks, fun _ => some (.ok smallPool), fun _ c hc => ?_, rfl⟩
  cases hc
  exact smallPool_starts

def firstBusy : List Move := .call (.submit false) :: own 1 5 ++ inside 0 2 7 ++ own 1 1 ++
  inside 0 3 1

def unevenPools : State :=
  ((program smallOptions).run (fun _ _ => True) leastPools firstBusy).get (by decide)

/-- The second pool has taken a payload as well; its worker has run it and parked. -/
def evenPools : State :=
  ((program smallOptions).run (fun _ _ => True) leastPools (firstBusy ++
    .call (.submit false) :: own 2 5 ++ inside 1 2 7 ++ own 2 1 ++ inside 1 3 8)).get (by decide)

theorem unevenPools_run : Run smallOptions (fun _ _ => True) unevenPools :=
  Program.Reach.run (.init leastPools_starts) (Option.some_get _).symm

theorem evenPools_run : Run smallOptions (fun _ _ => True) evenPools :=
  Program.Reach.run (.init leastPools_starts) (Option.some_get _).symm

/-- The first pool is busy and the second one has no worker yet. -/
theorem fewest_pending_of_surplus_uneven :
    ∃ c, unevenPools.shared.members[1]? = some c ∧
      ∀ d ∈ unevenPools.shared.members, pendingTasks c ≤ pendingTasks d := by
  obtain ⟨y, hy, hφ⟩ := Program.Reach.exists_of_run
    (P := program smallOptions) (I := fun z => z = dispatched unevenPools false) (G := alone 2)
    (x := dispatched unevenPools false) (m := own 2 4)
    (φ := fun y => y.threads[2]? = some (.client (.dispatch ⟨false, false, [], .deliver 1⟩)))
    rfl (by decide)
  exact fewest_pending_of_surplus unevenPools_run rfl hy (of_decide_eq_true hφ) rfl (by decide)

/-- Both pools have one running worker, and the one of the second pool is parked: the
dispatch turns to the first pool, which runs a payload. -/
theorem busy_pool_chosen :
    Run smallOptions (fun _ _ => True) evenPools ∧ evenPools.shared.head.lbs = leastTasks ∧
      ∃ y t, (program smallOptions).Reach (fun z => z = dispatched evenPools false)
          (alone evenPools.threads.length) y ∧
        y.threads[evenPools.threads.length]? = some (.client (.dispatch t)) ∧
        t.pc = .deliver 0 ∧ ∃ c d, evenPools.shared.members = [c, d] ∧
          pendingTasks c = 1 ∧ pendingTasks d = 0 := by
  refine ⟨evenPools_run, rfl, ?_⟩
  obtain ⟨y, hy, hφ⟩ := Program.Reach.exists_of_run
    (P := program smallOptions) (I := fun z => z = dispatched evenPools false) (G := alone 3)
    (x := dispatched evenPools false) (m := own 3 4)
    (φ := fun y => y.threads[3]? = some (.client (.dispatch ⟨false, false, [], .deliver 0⟩)))
    rfl (by decide)
  exact ⟨y, _, hy, of_decide_eq_true hφ, rfl, _, _, rfl, by decide, by decide⟩

end MultiPool

end AntsPool
