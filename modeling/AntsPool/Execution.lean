import AntsPool.Capacity
import AntsPool.Executor
import AntsPool.HandOff

/-!
# A pool is an executor

A payload is a job, named by its caller. It is accepted when the caller sends it to a
worker, begun when the worker's thread receives it and finished when that thread comes
back from it. Every other step of a pool, those of the purge, of a release and of a
reboot among them, leaves all jobs where they are.
-/
namespace AntsPool
open Interleaving ListTotals

/-- The job that a thread runs. -/
def Thread.job : Thread → Option ℕ
  | .work ⟨_, _, .call p⟩ => some p.id
  | _ => none

/-- Whether a thread is a call that has sent its payload. -/
def Thread.hasSent : Thread → Bool
  | .submit ⟨_, _, .ok _⟩ => true
  | _ => false

/-- Whether some worker runs job `n`. -/
def runs (x : Config) (n : ℕ) : Bool := x.threads.any fun t => t.job = some n

/-- Whether job `n` has been received. -/
def begun (x : Config) (n : ℕ) : Bool := x.shared.past.received.any fun r => r.1 = n

def accepted (x : Config) (n : ℕ) : Bool := x.threads[n]?.any Thread.hasSent

def phase (x : Config) (n : ℕ) : Phase :=
  if runs x n then .running
  else if begun x n then .done
  else if accepted x n then .waiting
  else .absent

/-- A capacity, `-1` being none. -/
def limitOf (capacity : ℤ) : ℕ∞ := if capacity = -1 then ⊤ else capacity.toNat

/-- The largest of the capacities. -/
noncomputable def limit (capacities : List ℤ) : ℕ∞ := capacities.foldr (fun k l => max (limitOf k) l) 0

/-- A pool as an executor. -/
noncomputable def view (x : Config) : Executor ℕ := ⟨phase x, limit x.shared.past.capacities⟩

theorem limitOf_le_limit {capacities : List ℤ} {k : ℤ} (hk : k ∈ capacities) :
    limitOf k ≤ limit capacities := by
  induction capacities with
  | nil => cases hk
  | cons c cs ih =>
      rcases List.mem_cons.mp hk with rfl | hk
      · exact le_max_left _ _
      · exact (ih hk).trans (le_max_right _ _)

/-! ## What a step does to the jobs -/

/-- A step that accepts, begins or finishes a job, raises the limit, or none of them. -/
inductive JobStep (i : ℕ) (s : PoolCore) (t : Thread) (s' : PoolCore) (t' : Thread) : Prop
  | accept {p b w} (ht : t = .submit ⟨p, b, .input w⟩) (ht' : t' = .submit ⟨p, b, .ok w⟩)
      (hs : s'.past = s.past)
  | begin {w b p rest} (ht : t = .work ⟨w, b, .recv⟩) (ht' : t' = .work ⟨w, b, .call p⟩)
      (hc : s.channel w = .payload p :: rest)
      (hs : s'.past.received = (p.id, w) :: s.past.received)
      (hl : s'.past.capacities = s.past.capacities)
  | finish {n} (ht : t.job = some n) (ht' : t'.job = none)
      (hn : t.hasSent = false ∧ t'.hasSent = false) (hs : s'.past = s.past)
  | raise {size} (hl : s'.past.capacities = size :: s.past.capacities)
      (hs : s'.past.received = s.past.received) (ht : t.job = none ∧ t'.job = none)
      (hn : t.hasSent = false ∧ t'.hasSent = false)
  | quiet (hl : s'.past.capacities = s.past.capacities)
      (hs : s'.past.received = s.past.received) (ht : t.job = none ∧ t'.job = none)
      (hn : t'.hasSent = t.hasSent)

theorem Thread.Step.jobStep {o : Options} {i : ℕ} {s s' : PoolCore} {t t' : Thread}
    {new : List Thread} (h : Thread.Step o i s t s' t' new) : JobStep i s t s' t' := by
  cases h with
  | submit h =>
      cases h with
      | input => exact .accept rfl rfl rfl
      | _ => exact .quiet rfl rfl ⟨rfl, rfl⟩ rfl
  | work h =>
      cases h with
      | recvPayload hc => exact .begin rfl rfl hc rfl rfl
      | stop | completed | panicked => exact .finish rfl rfl ⟨rfl, rfl⟩ rfl
      | _ => exact .quiet rfl rfl ⟨rfl, rfl⟩ rfl
  | release h =>
      cases h with
      | reset =>
          have hp := Release.reset_frame i s
          obtain ⟨g, p, hr, hcs, _, hrec⟩ := hp
          rw [hr]
          exact .quiet hcs hrec ⟨rfl, rfl⟩ rfl
      | _ => exact .quiet rfl rfl ⟨rfl, rfl⟩ rfl
  | tune h =>
      cases h with
      | growOne | grow | shrink => exact .raise rfl rfl ⟨rfl, rfl⟩ ⟨rfl, rfl⟩
      | _ => exact .quiet rfl rfl ⟨rfl, rfl⟩ rfl
  | purge h => cases h <;> exact .quiet rfl rfl ⟨rfl, rfl⟩ rfl
  | ticktock h => cases h <;> exact .quiet rfl rfl ⟨rfl, rfl⟩ rfl
  | reboot h => cases h <;> exact .quiet rfl rfl ⟨rfl, rfl⟩ rfl
  | clock => exact .quiet rfl rfl ⟨rfl, rfl⟩ rfl

/-- A thread that has just been started runs no job and has sent none. -/
theorem Thread.Step.new_jobless {o : Options} {i : ℕ} {s s' : PoolCore} {t t' u : Thread}
    {new : List Thread} (h : Thread.Step o i s t s' t' new) (hu : u ∈ new) :
    u.job = none ∧ u.hasSent = false := by
  rcases h.new_cases hu with ⟨w, rfl⟩ | rfl | rfl <;> exact ⟨rfl, rfl⟩

/-- Which jobs run after a step. -/
theorem runs_after {x : Config} {i : ℕ} {s' : PoolCore} {t t' : Thread} {new : List Thread}
    (ht : x.threads[i]? = some t) (hnew : ∀ u ∈ new, u.job = none) (n : ℕ) :
    runs (x.after i (s', t', new)) n = true ↔
      t'.job = some n ∨ ∃ j u, j ≠ i ∧ x.threads[j]? = some u ∧ u.job = some n := by
  simp only [runs, List.any_eq_true, decide_eq_true_eq]
  constructor
  · rintro ⟨u, hu, hjob⟩
    obtain ⟨j, hj⟩ := List.mem_iff_getElem?.mp hu
    rcases Config.getElem?_after ht hj with ⟨rfl, rfl⟩ | ⟨hji, hold⟩ | ⟨_, hn⟩
    · exact .inl hjob
    · exact .inr ⟨j, u, hji, hold, hjob⟩
    · cases (hnew u hn).symm.trans hjob
  · rintro (hjob | ⟨j, u, hji, hu, hjob⟩)
    · exact ⟨t', List.mem_of_getElem? (Config.getElem?_after_self ht), hjob⟩
    · exact ⟨u, List.mem_of_getElem? (Config.getElem?_after_ne hji hu), hjob⟩

theorem runs_iff {x : Config} {i : ℕ} {t : Thread} (ht : x.threads[i]? = some t) (n : ℕ) :
    runs x n = true ↔
      t.job = some n ∨ ∃ j u, j ≠ i ∧ x.threads[j]? = some u ∧ u.job = some n := by
  simp only [runs, List.any_eq_true, decide_eq_true_eq]
  constructor
  · rintro ⟨u, hu, hjob⟩
    obtain ⟨j, hj⟩ := List.mem_iff_getElem?.mp hu
    by_cases hji : j = i
    · subst hji
      cases Option.some.inj (ht.symm.trans hj)
      exact .inl hjob
    · exact .inr ⟨j, u, hji, hj, hjob⟩
  · rintro (hjob | ⟨j, u, _, hu, hjob⟩)
    · exact ⟨t, List.mem_of_getElem? ht, hjob⟩
    · exact ⟨u, List.mem_of_getElem? hu, hjob⟩

/-- Which calls have sent their payloads after a step. -/
theorem accepted_after {x : Config} {i : ℕ} {s' : PoolCore} {t t' : Thread} {new : List Thread}
    (ht : x.threads[i]? = some t) (hnew : ∀ u ∈ new, u.hasSent = false) (n : ℕ) :
    accepted (x.after i (s', t', new)) n = if n = i then t'.hasSent else accepted x n := by
  split_ifs with hn
  · subst hn
    simp only [accepted, Config.getElem?_after_self ht, Option.any_some]
  · cases hx : x.threads[n]? with
    | some u => simp only [accepted, Config.getElem?_after_ne hn hx, hx]
    | none =>
        simp only [accepted, hx, Option.any_none]
        cases hy : (x.after i (s', t', new)).threads[n]? with
        | none => rfl
        | some u =>
            rcases Config.getElem?_after ht hy with ⟨rfl, _⟩ | ⟨_, hold⟩ | ⟨_, hmem⟩
            · exact (hn rfl).elim
            · cases hx.symm.trans hold
            · exact hnew u hmem

/-! ## Jobs go through the phases in order -/

/-- The receipts of job `n` with the threads that run it. -/
def jobLedger (n : ℕ) : Ledger PoolCore Thread where
  held s := -(s.past.received.countP fun r => r.1 = n)
  carried t := if t.job = some n then 1 else 0

namespace Run
variable {o : Options} {G : Guard} {x : Config}

/-- Only jobs that have been received run. -/
theorem running_le_received (h : Run o G x) (n : ℕ) :
    (x.threads.countP fun t => t.job = some n) ≤
      x.shared.past.received.countP fun r => r.1 = n := by
  have hbal : (jobLedger n).balance x ≤ 0 := by
    refine Ledger.balance_le ?_ ?_ ?_ h
    · intro y hy
      have hnone : total (jobLedger n).carried y.threads = 0 := by
        refine total_eq_zero fun t ht => ?_
        rcases hy.fresh.threads t ht with rfl | rfl | rfl <;> rfl
      rw [Ledger.balance, hnone]
      simp [jobLedger, hy.fresh.received]
    · intro i c
      cases c <;> exact le_rfl
    · intro y i t a r _ _ _ ht hn
      have hs := program_step hn
      have hnone : total (jobLedger n).carried r.2.2 = 0 :=
        total_eq_zero fun u hu => by simp [jobLedger, (hs.new_jobless hu).1]
      rw [hnone]
      cases hs.jobStep with
      | accept ht ht' hp => simp [jobLedger, ht, ht', hp, Thread.job]
      | begin ht ht' _ hrec =>
          simp only [jobLedger, ht, ht', hrec, Thread.job, List.countP_cons, decide_eq_true_eq,
            Option.some.injEq, reduceCtorEq, if_false]
          push_cast
          omega
      | finish ht ht' _ hp =>
          simp only [jobLedger, ht', hp, reduceCtorEq, if_false]
          split_ifs <;> omega
      | raise _ hrec ht | quiet _ hrec ht => simp [jobLedger, hrec, ht.1, ht.2]
  have hcount : total (jobLedger n).carried x.threads =
      x.threads.countP fun t => t.job = some n := by
    rw [← total_indicator]
    exact total_congr fun t _ => by simp [jobLedger]
  rw [Ledger.balance, hcount] at hbal
  simp only [jobLedger] at hbal
  omega

/-- What has been sent was sent by its own call, once and to one worker. -/
theorem accepted_of_sent (h : Run o G x) {n w : ℕ} (hs : x.shared.sent n w ≠ 0) :
    accepted x n = true ∧ x.shared.sent n w = 1 ∧ ∀ v, v ≠ w → x.shared.sent n v = 0 := by
  by_cases hex : ∃ p b, x.threads[n]? = some (.submit ⟨p, b, .ok w⟩)
  · obtain ⟨p, b, ht⟩ := hex
    have hd := (h.handOff.delivered n p b w ht).2
    exact ⟨by simp [accepted, ht, Thread.hasSent], hd.once, hd.elsewhere⟩
  · push Not at hex
    exact (hs (h.sent_le n w hex)).elim

theorem received_le_one (h : Run o G x) (n : ℕ) :
    (x.shared.past.received.countP fun r => r.1 = n) ≤ 1 := by
  by_cases hex : ∃ w, (n, w) ∈ x.shared.past.received
  · obtain ⟨w, hw⟩ := hex
    have hpos := List.one_le_count_iff.mpr hw
    obtain ⟨_, hone, helse⟩ := h.accepted_of_sent (n := n) (w := w) (by
      rw [PoolCore.sent]
      omega)
    refine le_trans ?_ ((Nat.le_add_left _ _).trans hone.le)
    rw [List.count_eq_countP]
    refine List.countP_mono_left fun r hr hn => ?_
    obtain ⟨m, v⟩ := r
    obtain rfl : m = n := by simpa using hn
    by_cases hv : v = w
    · simp [hv]
    · have hzero := helse v hv
      have hmem := List.one_le_count_iff.mpr hr
      rw [PoolCore.sent] at hzero
      omega
  · rw [List.countP_eq_zero.mpr]
    · exact Nat.zero_le 1
    · rintro ⟨m, v⟩ hr hn
      obtain rfl : m = n := by simpa using hn
      exact hex ⟨v, hr⟩

theorem accepted_of_begun (h : Run o G x) {n : ℕ} (hb : begun x n = true) :
    accepted x n = true := by
  simp only [begun, List.any_eq_true, decide_eq_true_eq] at hb
  obtain ⟨⟨m, w⟩, hr, rfl⟩ := hb
  have hpos := List.one_le_count_iff.mpr hr
  refine (h.accepted_of_sent (n := m) (w := w) ?_).1
  rw [PoolCore.sent]
  omega

theorem begun_of_runs (h : Run o G x) {n : ℕ} (hr : runs x n = true) : begun x n = true := by
  have hle := h.running_le_received n
  have hpos : 0 < x.threads.countP fun t => t.job = some n := by
    simp only [runs, List.any_eq_true] at hr
    exact List.countP_pos_iff.mpr hr
  have hrec : 0 < x.shared.past.received.countP fun r => r.1 = n := by omega
  simp only [begun, List.any_eq_true]
  exact List.countP_pos_iff.mp hrec

/-- No two threads run the same job. -/
theorem job_unique (h : Run o G x) {i j : ℕ} {t u : Thread} {n : ℕ}
    (hi : x.threads[i]? = some t) (hj : x.threads[j]? = some u) (ht : t.job = some n)
    (hu : u.job = some n) : i = j := by
  by_contra hij
  have htwo := add_le_total (f := fun t : Thread => if t.job = some n then 1 else 0)
    (fun t => by split <;> omega) hij hi hj
  have hle := (h.running_le_received n).trans (h.received_le_one n)
  have hcount := total_indicator (fun t : Thread => decide (t.job = some n)) x.threads
  simp only [decide_eq_true_eq] at hcount
  rw [hcount, if_pos ht, if_pos hu] at htwo
  omega

/-- The jobs that run are within the limit. -/
theorem within (h : Run o G x) : (view x).Within := by
  have hsub : (view x).runningJobs ⊆ ↑(x.threads.filterMap Thread.job).toFinset := by
    intro n hn
    have hr : runs x n = true := by
      by_contra hr
      simp only [Executor.runningJobs, Set.mem_ofPred_eq, view, phase, if_neg hr] at hn
      split_ifs at hn
    simp only [runs, List.any_eq_true, decide_eq_true_eq] at hr
    obtain ⟨t, ht, hjob⟩ := hr
    simp only [List.coe_toFinset, Set.mem_ofPred_eq, List.mem_filterMap]
    exact ⟨t, ht, hjob⟩
  have hcard : (x.threads.filterMap Thread.job).toFinset.card ≤ x.threads.countP Thread.counted := by
    refine (List.toFinset_card_le _).trans ?_
    rw [List.length_filterMap_eq_countP]
    refine List.countP_mono_left fun t _ hj => ?_
    cases t with
    | work t =>
        obtain ⟨w, b, pc⟩ := t
        cases pc with
        | call p => rfl
        | _ => cases hj
    | _ => cases hj
  have hlimit : (x.threads.countP Thread.counted : ℕ∞) ≤ limit x.shared.past.capacities := by
    have hb := h.bounded.1
    rcases hb.within with hc | ⟨k, hk, hle⟩
    · refine le_trans ?_ (limitOf_le_limit hb.current_mem)
      rw [limitOf, if_pos hc]
      exact le_top
    · refine le_trans ?_ (limitOf_le_limit hk)
      unfold limitOf
      split_ifs
      · exact le_top
      · have hrun := h.running_eq
        exact_mod_cast (by omega : x.threads.countP Thread.counted ≤ k.toNat)
  calc (view x).runningJobs.encard
      ≤ (↑(x.threads.filterMap Thread.job).toFinset : Set ℕ).encard := Set.encard_le_encard hsub
    _ = ((x.threads.filterMap Thread.job).toFinset.card : ℕ∞) := Set.encard_coe_eq_coe_finsetCard _
    _ ≤ (x.threads.countP Thread.counted : ℕ∞) := by exact_mod_cast hcard
    _ ≤ (view x).limit := hlimit

end Run

/-! ## The simulation -/

theorem view_congr {x y : Config} (hl : y.shared.past.capacities = x.shared.past.capacities)
    (hb : y.shared.past.received = x.shared.past.received) (hr : ∀ n, runs y n = runs x n)
    (ha : ∀ n, accepted y n = accepted x n) : view y = view x := by
  have hphase : phase y = phase x := by
    funext n
    have hbegun : begun y n = begun x n := by rw [begun, begun, hb]
    simp only [phase, hr, ha, hbegun]
  rw [view, view, hphase, hl]

/-- A configuration that differs in one job. -/
theorem view_move {x y : Config} {n : ℕ} {p : Phase}
    (hl : y.shared.past.capacities = x.shared.past.capacities) (hn : phase y n = p)
    (hne : ∀ m, m ≠ n → runs y m = runs x m ∧ begun y m = begun x m ∧ accepted y m = accepted x m) :
    view y = (view x).move n p := by
  have hphase : phase y = Function.update (phase x) n p := by
    funext m
    rw [Function.update_apply]
    split_ifs with hm
    · rw [hm, hn]
    · obtain ⟨hr, hb, ha⟩ := hne m hm
      simp only [phase, hr, hb, ha]
  rw [view, hphase, hl]
  rfl

theorem runs_after_congr {x : Config} {i : ℕ} {s' : PoolCore} {t t' : Thread} {new : List Thread}
    (ht : x.threads[i]? = some t) (hnew : ∀ u ∈ new, u.job = none) {n : ℕ}
    (hjob : t'.job = some n ↔ t.job = some n) : runs (x.after i (s', t', new)) n = runs x n := by
  rw [Bool.eq_iff_iff, runs_after ht hnew, runs_iff ht, hjob]

theorem accepted_after_congr {x : Config} {i : ℕ} {s' : PoolCore} {t t' : Thread}
    {new : List Thread} (ht : x.threads[i]? = some t) (hnew : ∀ u ∈ new, u.hasSent = false)
    (hsent : t'.hasSent = t.hasSent) (n : ℕ) :
    accepted (x.after i (s', t', new)) n = accepted x n := by
  rw [accepted_after ht hnew]
  split_ifs with hn
  · rw [hn, accepted, ht, Option.any_some, hsent]
  · rfl

namespace Run
variable {o : Options} {G : Guard} {x : Config} {i : ℕ} {s' : PoolCore} {t t' : Thread}
  {new : List Thread}

/-- A call that sends its payload has it accepted. -/
theorem view_accept (h : Run o G x) (ht : x.threads[i]? = some t)
    (hjobless : ∀ u ∈ new, u.job = none) (hunsent : ∀ u ∈ new, u.hasSent = false)
    (hp : s'.past = x.shared.past) (hjob : t.job = none ∧ t'.job = none)
    (hsent : t.hasSent = false ∧ t'.hasSent = true) :
    Executor.Step (view x) (view (x.after i (s', t', new))) := by
  have hruns (n : ℕ) : runs (x.after i (s', t', new)) n = runs x n :=
    runs_after_congr ht hjobless (by rw [hjob.1, hjob.2])
  have hbegun (n : ℕ) : begun (x.after i (s', t', new)) n = begun x n := by
    simp only [begun, Config.after, hp]
  have ha : ¬ accepted x i = true := by simp [accepted, ht, hsent.1]
  have hb : ¬ begun x i = true := fun hb => ha (h.accepted_of_begun hb)
  have hr : ¬ runs x i = true := fun hr => hb (h.begun_of_runs hr)
  have habsent : phase x i = .absent := by rw [phase, if_neg hr, if_neg hb, if_neg ha]
  have hwaiting : phase (x.after i (s', t', new)) i = .waiting := by
    have hnow : accepted (x.after i (s', t', new)) i = true := by
      rw [accepted_after ht hunsent, if_pos rfl, hsent.2]
    rw [phase, hruns, hbegun, if_neg hr, if_neg hb, if_pos hnow]
  rw [view_move (n := i) (congrArg History.capacities hp) hwaiting fun m hm =>
    ⟨hruns m, hbegun m, by rw [accepted_after ht hunsent, if_neg hm]⟩]
  exact .accept habsent

/-- A payload that is about to be received has been accepted and not been received. -/
theorem waiting_of_channel (h : Run o G x) {w : ℕ} {p : Payload} {rest : List Message}
    (hc : x.shared.channel w = .payload p :: rest) : phase x p.id = .waiting := by
  have hpos : 1 ≤ (x.shared.channel w).countP (Message.carries p.id) := by
    rw [hc]
    exact List.countP_pos_iff.mpr ⟨_, List.mem_cons_self, by simp [Message.carries]⟩
  have hsent : x.shared.sent p.id w ≠ 0 := by
    rw [PoolCore.sent]
    omega
  obtain ⟨ha, hone, helse⟩ := h.accepted_of_sent hsent
  have hb : ¬ begun x p.id = true := by
    simp only [begun, List.any_eq_true, decide_eq_true_eq]
    rintro ⟨⟨m, v⟩, hr, rfl⟩
    have hmem := List.one_le_count_iff.mpr hr
    by_cases hv : v = w
    · subst hv
      rw [PoolCore.sent] at hone
      omega
    · have hzero := helse v hv
      rw [PoolCore.sent] at hzero
      omega
  have hr : ¬ runs x p.id = true := fun hr => hb (h.begun_of_runs hr)
  rw [phase, if_neg hr, if_neg hb, if_pos ha]

theorem view_begin (h : Run o G x) {w : ℕ} {b : Bool} {p : Payload} {rest : List Message}
    (ht : x.threads[i]? = some (.work ⟨w, b, .recv⟩)) (hjobless : ∀ u ∈ new, u.job = none)
    (hunsent : ∀ u ∈ new, u.hasSent = false) (hc : x.shared.channel w = .payload p :: rest)
    (hrec : s'.past.received = (p.id, w) :: x.shared.past.received)
    (hl : s'.past.capacities = x.shared.past.capacities)
    (hy : Run o G (x.after i (s', .work ⟨w, b, .call p⟩, new))) :
    Executor.Step (view x) (view (x.after i (s', .work ⟨w, b, .call p⟩, new))) := by
  have hrunning : phase (x.after i (s', .work ⟨w, b, .call p⟩, new)) p.id = .running := by
    rw [phase, if_pos ((runs_after ht hjobless _).mpr (.inl rfl))]
  have hview := view_move (n := p.id) (x := x) hl hrunning fun m hm => by
    have hsent : (Thread.work ⟨w, b, .call p⟩).hasSent = (Thread.work ⟨w, b, .recv⟩).hasSent := rfl
    refine ⟨runs_after_congr ht hjobless ?_, ?_, accepted_after_congr ht hunsent hsent m⟩
    · simp [Thread.job, Ne.symm hm]
    · simp [begun, Config.after, hrec, Ne.symm hm]
  have hwithin := hy.within
  rw [hview] at hwithin ⊢
  exact .begin (h.waiting_of_channel hc) hwithin

theorem view_finish (h : Run o G x) {n : ℕ} (ht : x.threads[i]? = some t)
    (hjobless : ∀ u ∈ new, u.job = none) (hunsent : ∀ u ∈ new, u.hasSent = false)
    (hjob : t.job = some n) (hnone : t'.job = none)
    (hsent : t.hasSent = false ∧ t'.hasSent = false) (hp : s'.past = x.shared.past) :
    Executor.Step (view x) (view (x.after i (s', t', new))) := by
  have hbegun (m : ℕ) : begun (x.after i (s', t', new)) m = begun x m := by
    simp only [begun, Config.after, hp]
  have hr : runs x n = true := (runs_iff ht n).mpr (.inl hjob)
  have hstopped : ¬ runs (x.after i (s', t', new)) n = true := by
    rw [runs_after ht hjobless, hnone]
    rintro (hself | ⟨j, u, hji, hu, hju⟩)
    · cases hself
    · exact hji (h.job_unique hu ht hju hjob)
  have hdone : phase (x.after i (s', t', new)) n = .done := by
    rw [phase, if_neg hstopped, hbegun, if_pos (h.begun_of_runs hr)]
  rw [view_move (n := n) (congrArg History.capacities hp) hdone fun m hm =>
    ⟨runs_after_congr ht hjobless (by simp [hjob, hnone, Ne.symm hm]), hbegun m,
      accepted_after_congr ht hunsent (hsent.2.trans hsent.1.symm) m⟩]
  exact .finish (by simp only [view, phase, if_pos hr])

/-- Every step of a pool is a step of the executor or leaves it alone. -/
theorem view_step (h : Run o G x) (ht : x.threads[i]? = some t)
    (hs : Thread.Step o i x.shared t s' t' new) (hy : Run o G (x.after i (s', t', new))) :
    Relation.ReflGen Executor.Step (view x) (view (x.after i (s', t', new))) := by
  have hjobless : ∀ u ∈ new, u.job = none := fun u hu => (hs.new_jobless hu).1
  have hunsent : ∀ u ∈ new, u.hasSent = false := fun u hu => (hs.new_jobless hu).2
  cases hs.jobStep with
  | accept ht0 ht' hp =>
      subst ht0 ht'
      exact .single (h.view_accept ht hjobless hunsent hp ⟨rfl, rfl⟩ ⟨rfl, rfl⟩)
  | begin ht0 ht' hc hrec hl =>
      subst ht0 ht'
      exact .single (h.view_begin ht hjobless hunsent hc hrec hl hy)
  | finish hjob hnone hsent hp =>
      exact .single (h.view_finish ht hjobless hunsent hjob hnone hsent hp)
  | @raise size hl hrec hjob hsent =>
      have hphase : phase (x.after i (s', t', new)) = phase x := by
        funext n
        have hbegun : begun (x.after i (s', t', new)) n = begun x n := by
          simp only [begun, Config.after, hrec]
        have hruns : runs (x.after i (s', t', new)) n = runs x n :=
          runs_after_congr ht hjobless (by rw [hjob.1, hjob.2])
        simp only [phase, hruns, hbegun,
          accepted_after_congr ht hunsent (hsent.2.trans hsent.1.symm)]
      have hview : view (x.after i (s', t', new)) =
          { view x with limit := limit (size :: x.shared.past.capacities) } := by
        rw [view, hphase, ← hl]
        rfl
      rw [hview]
      exact .single (.raise (le_max_right _ _))
  | quiet hl hrec hjob hsent =>
      rw [view_congr hl hrec (fun n => runs_after_congr ht hjobless (by rw [hjob.1, hjob.2]))
        (accepted_after_congr ht hunsent hsent)]

/-- A call that comes in changes no job. -/
theorem view_call (x : Config) (c : Call) : view ((program o).entered x c) = view x := by
  have hstart : (c.start x.threads.length).job = none ∧
      (c.start x.threads.length).hasSent = false := by
    cases c <;> exact ⟨rfl, rfl⟩
  refine view_congr rfl rfl (fun n => ?_) fun n => ?_
  · simp only [runs, Program.entered, List.any_append, List.any_cons, List.any_nil, Bool.or_false,
      program, hstart.1, reduceCtorEq, decide_false]
  · simp only [accepted, Program.entered]
    cases hnew : (x.threads ++ [(program o).start x.threads.length c])[n]? with
    | none =>
        rw [List.getElem?_eq_none_iff, List.length_append] at hnew
        rw [List.getElem?_eq_none (by omega)]
    | some u =>
        rcases getElem?_concat_cases hnew with hold | ⟨rfl, rfl⟩
        · rw [hold]
        · rw [List.getElem?_eq_none le_rfl]
          exact hstart.2

end Run

/-! ## Where the jobs are -/

/-- Where job `n` is. A waiting one is in the channel of one worker, whose thread is about
to receive it, and a running one is run by one thread. -/
structure Located (x : Config) (n : ℕ) : Prop where
  unsent : phase x n = .absent → ∀ w, x.shared.sent n w = 0
  queued : phase x n = .waiting → ∃ p w, x.shared.channel w = [.payload p] ∧ p.id = n ∧
    (∃ t, Thread.work t ∈ x.threads ∧ t.worker = w ∧ t.pc = .recv) ∧
    ∀ v, v ≠ w → x.shared.sent n v = 0
  runners : (x.threads.countP fun t => t.job = some n) = if phase x n = .running then 1 else 0
  receipts : (x.shared.past.received.countP fun r => r.1 = n) =
    if phase x n = .running ∨ phase x n = .done then 1 else 0

namespace Run
variable {o : Options} {G : Guard} {x : Config}

/-- A payload that was sent and has not been received is in the channel of its worker. -/
theorem queued_of_sent (h : Run o G x) {n : ℕ} (ha : accepted x n = true)
    (hb : begun x n = false) : ∃ p w, x.shared.channel w = [.payload p] ∧ p.id = n ∧
      (∃ t, Thread.work t ∈ x.threads ∧ t.worker = w ∧ t.pc = .recv) ∧
      ∀ v, v ≠ w → x.shared.sent n v = 0 := by
  simp only [accepted, Option.any_eq_true] at ha
  obtain ⟨t, ht, hsent⟩ := ha
  cases t with
  | submit t =>
      obtain ⟨p, b, pc⟩ := t
      cases pc with
      | ok w =>
          have hd := (h.handOff.delivered n p b w ht).2
          have hrec : x.shared.past.received.count (n, w) = 0 := by
            refine List.count_eq_zero.mpr fun hr => ?_
            exact absurd (decide_eq_true rfl) (List.any_eq_false.mp hb _ hr)
          obtain ⟨hlen, hserved⟩ := hd.pending hrec
          obtain ⟨m, hm⟩ := List.length_eq_one_iff.mp hlen
          have honce := hd.once
          rw [PoolCore.sent, hrec, hm] at honce
          cases m with
          | payload q =>
              refine ⟨q, w, hm, ?_, hserved, hd.elsewhere⟩
              by_contra hne
              simp [Message.carries, hne] at honce
          | finish => simp [Message.carries] at honce
      | _ => cases hsent
  | _ => cases hsent

theorem located (h : Run o G x) (n : ℕ) : Located x n := by
  have hrunners : runs x n = true ↔ 0 < x.threads.countP fun t => t.job = some n := by
    rw [runs, List.any_eq_true, List.countP_pos_iff]
  have hreceipts : begun x n = true ↔ 0 < x.shared.past.received.countP fun r => r.1 = n := by
    rw [begun, List.any_eq_true, List.countP_pos_iff]
  have hle := h.running_le_received n
  have hone := h.received_le_one n
  have hbegun := h.begun_of_runs (n := n)
  cases hr : runs x n with
  | true =>
      have hphase : phase x n = .running := by simp only [phase, hr, if_true]
      have hpos := hrunners.mp hr
      refine ⟨fun hp => ?_, fun hp => ?_, ?_, ?_⟩
      · cases hphase.symm.trans hp
      · cases hphase.symm.trans hp
      · rw [if_pos hphase]
        omega
      · rw [if_pos (.inl hphase)]
        omega
  | false =>
      have hnone : (x.threads.countP fun t => t.job = some n) = 0 := by
        have hnot := mt hrunners.mpr (Bool.eq_false_iff.mp hr)
        omega
      cases hb : begun x n with
      | true =>
          have hphase : phase x n = .done := by
            simp only [phase, hr, hb, Bool.false_eq_true, if_false, if_true]
          have hpos := hreceipts.mp hb
          refine ⟨fun hp => ?_, fun hp => ?_, ?_, ?_⟩
          · cases hphase.symm.trans hp
          · cases hphase.symm.trans hp
          · rw [hnone, hphase, if_neg (by decide)]
          · rw [if_pos (.inr hphase)]
            omega
      | false =>
          have hnot := mt hreceipts.mpr (Bool.eq_false_iff.mp hb)
          have hphase : phase x n = if accepted x n = true then .waiting else .absent := by
            simp only [phase, hr, hb, Bool.false_eq_true, if_false]
          refine ⟨fun hp w => ?_, fun hp => ?_, ?_, ?_⟩
          · by_contra hsent
            rw [hphase, if_pos (h.accepted_of_sent hsent).1] at hp
            cases hp
          · refine h.queued_of_sent ?_ hb
            by_contra ha
            rw [hphase, if_neg ha] at hp
            cases hp
          · rw [hnone, hphase]
            split_ifs <;> first | rfl | contradiction
          · rw [hphase]
            split_ifs <;> first | omega | contradiction

end Run

/-- A pool is an executor of its payloads. A new pool has none; every move in every
interleaving accepts, begins or finishes one payload, raises the limit, or changes
nothing; so between any two configurations of a run payloads only go forward, and they run
within the largest capacity there has been. In each configuration a waiting payload is
where its worker receives it next, and a running one is run by one thread. -/
theorem pool_refines_executor {o : Options} :
    (∀ x, Starts o x → ∀ n, (view x).phase n = .absent) ∧
    (∀ x m y, Run o anyMove x → (program o).fire x m = some y →
      Relation.ReflGen Executor.Step (view x) (view y)) ∧
    (∀ x₀ x, Run o anyMove x₀ → (program o).Reach (fun z => z = x₀) anyMove x →
      Relation.ReflTransGen Executor.Step (view x₀) (view x) ∧
      (∀ n, ((view x₀).phase n).rank ≤ ((view x).phase n).rank) ∧
      (view x).runningJobs.encard ≤ (view x).limit) ∧
    ∀ x, Run o anyMove x → ∀ n, Located x n := by
  have hmove : ∀ x m y, Run o anyMove x → (program o).fire x m = some y →
      Relation.ReflGen Executor.Step (view x) (view y) := by
    intro x m y hx hf
    have hy : Run o anyMove y := .move m hx trivial hf
    cases m with
    | call c =>
        cases hf
        rw [Run.view_call]
    | step i a =>
        obtain ⟨t, r, ht, hn, rfl⟩ := Program.fire_step _ hf
        exact hx.view_step ht (program_step hn) hy
  refine ⟨fun x hx n => ?_, hmove, fun x₀ x h₀ hx => ?_, fun x hx => hx.located⟩
  · have hfresh := hx.fresh
    have hb : ¬ begun x n = true := by simp [begun, hfresh.received]
    have hr : ¬ runs x n = true := fun hr => hb (Run.begun_of_runs (G := anyMove) (.init hx) hr)
    have ha : ¬ accepted x n = true := by
      intro ha
      simp only [accepted, Option.any_eq_true] at ha
      obtain ⟨t, ht, hsent⟩ := ha
      rcases hfresh.threads t (List.mem_of_getElem? ht) with rfl | rfl | rfl <;> cases hsent
    simp only [view, phase, if_neg hr, if_neg hb, if_neg ha]
  · have hsteps := h₀.view hmove hx
    have hforward := Executor.forward hsteps (Run.within (G := anyMove) h₀)
    exact ⟨hsteps, hforward⟩

end AntsPool
