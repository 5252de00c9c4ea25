import AntsPool.Capacity
import AntsPool.Ownership
import AntsPool.Traces

/-!
# The epilogue of a worker

What follows the loop of `work`: the decrement of `running`, the return of the worker
to the cache, the report of a panic, and the signal. The report runs code of the user
and nothing guards the step after it.
-/
namespace AntsPool
open Interleaving

abbrev PoolEvent := Interleaving.Event PoolCore Thread Call Env

/-- The runs of a pool with their moves. -/
abbrev Traced (o : Options) (G : Guard) : List PoolEvent → Config → Prop :=
  (program o).Trace (Starts o) G

/-! ## The effects of a step -/

/-- `add_running(-1)`. -/
def lowersRunning (e : PoolEvent) : Bool := e.after.shared.running = e.before.shared.running - 1

/-- `recycle(worker)`. -/
def caches (w : ℕ) (e : PoolEvent) : Bool :=
  e.after.shared.workerCache = w :: e.before.shared.workerCache

/-- The signal that ends `work`. -/
def wakesOne (e : PoolEvent) : Bool :=
  match e.actor with
  | some (.work t) => t.pc = .signal
  | _ => false

/-- The panic handler, or the logger in its place, panics. -/
def handlerPanics (e : PoolEvent) : Bool :=
  match e.actor, e.move with
  | some (.work t), .step _ a => t.pc = .report && a ≠ .ok
  | _, _ => false

/-- Only the decrement of an epilogue lowers `running`. -/
theorem Thread.Step.lowers_iff {o : Options} {i : ℕ} {s s' : PoolCore} {t t' : Thread}
    {new : List Thread} (h : Thread.Step o i s t s' t' new) :
    s'.running = s.running - 1 ↔ ∃ u, t = .work u ∧ u.pc = .exit := by
  constructor
  · intro hlow
    rcases h.running_cases with ⟨_, _, _, _, hr⟩ | ⟨w, b, ht, _⟩ | hr
    · omega
    · exact ⟨_, ht, rfl⟩
    · omega
  · rintro ⟨⟨w, b, pc⟩, rfl, rfl⟩
    cases h with
    | work h => cases h <;> rfl

/-- Only an epilogue adds to the cache. -/
theorem Thread.Step.cache_cases {o : Options} {i : ℕ} {s s' : PoolCore} {t t' : Thread}
    {new : List Thread} (h : Thread.Step o i s t s' t' new) :
    (∃ w b, t = .work ⟨w, b, .recycle⟩ ∧ s'.workerCache = w :: s.workerCache) ∨
      s'.workerCache <:+ s.workerCache := by
  cases h with
  | submit h =>
      cases h with
      | @spawnCached _ _ w rest hc => exact .inr (hc ▸ List.suffix_cons w rest)
      | _ => exact .inr List.suffix_rfl
  | work h =>
      cases h with
      | recycleReport | recycleSignal => exact .inl ⟨_, _, rfl, rfl⟩
      | _ => exact .inr List.suffix_rfl
  | release h =>
      cases h with
      | reset =>
          obtain ⟨_, _, hr, _⟩ := Release.reset_frame i s
          have hcache : (Release.reset i s).workerCache = s.workerCache := by rw [hr]
          exact .inr (hcache ▸ List.suffix_rfl)
      | _ => exact .inr List.suffix_rfl
  | purge h => cases h <;> exact .inr List.suffix_rfl
  | ticktock h => cases h <;> exact .inr List.suffix_rfl
  | reboot h => cases h <;> exact .inr List.suffix_rfl
  | tune h => cases h <;> exact .inr List.suffix_rfl
  | clock => exact .inr List.suffix_rfl

theorem Thread.Step.caches_iff {o : Options} {i : ℕ} {s s' : PoolCore} {t t' : Thread}
    {new : List Thread} (h : Thread.Step o i s t s' t' new) (w : ℕ) :
    s'.workerCache = w :: s.workerCache ↔
      ∃ u, t = .work u ∧ u.worker = w ∧ u.pc = .recycle := by
  constructor
  · intro hcache
    rcases h.cache_cases with ⟨v, b, rfl, hv⟩ | hsuffix
    · exact ⟨_, rfl, (List.cons.inj (hcache.symm.trans hv)).1.symm, rfl⟩
    · have hlen := hsuffix.length_le
      rw [hcache, List.length_cons] at hlen
      omega
  · rintro ⟨⟨w, b, pc⟩, rfl, rfl, rfl⟩
    cases h with
    | work h => cases h <;> rfl

namespace WorkerPc

/-- How many steps the epilogue still has, at most; zero outside it. -/
def left : WorkerPc → ℕ
  | .exit => 7
  | .exitClosed => 6
  | .latchFetch => 5
  | .latchClose _ => 4
  | .recycle => 3
  | .report => 2
  | .signal => 1
  | _ => 0

/-- Whether the thread of a worker is over. -/
def ended : WorkerPc → Bool
  | .returned | .unwound => true
  | _ => false

end WorkerPc

/-- Nothing blocks an epilogue: every step is possible and leaves fewer of them. -/
theorem Work.epilogue_progress (s : PoolCore) {t : Work} (ht : 0 < t.pc.left) (env : Env) :
    ∃ s' t', t.next s env = some (s', t') ∧ t'.pc.left < t.pc.left ∧
      (t'.pc.left = 0 → t'.pc.ended = true) := by
  obtain ⟨w, b, pc⟩ := t
  cases pc with
  | exit =>
      refine ⟨_, _, rfl, ?_⟩
      dsimp only
      split_ifs <;> simp [WorkerPc.left]
  | exitClosed =>
      refine ⟨_, _, rfl, ?_⟩
      dsimp only
      split_ifs <;> simp [WorkerPc.left]
  | latchFetch | latchClose => exact ⟨_, _, rfl, by simp [WorkerPc.left], nofun⟩
  | recycle => cases b <;> exact ⟨_, _, rfl, by simp [WorkerPc.left], nofun⟩
  | report =>
      refine ⟨_, _, rfl, ?_⟩
      dsimp only
      split_ifs <;> simp [WorkerPc.left, WorkerPc.ended]
  | signal => exact ⟨_, _, rfl, by simp [WorkerPc.left], fun _ => rfl⟩
  | _ => exact absurd ht (lt_irrefl _)

/-! ## Counting the effects of a thread -/

/-- One for a worker's thread with property `q`. -/
def Thread.phase (q : Work → Bool) : Thread → ℤ
  | .work t => if q t then 1 else 0
  | _ => 0

/-- A kind of step that only the threads of workers make, and each at most once: the
thread has made it exactly when it is in the phase after it. -/
theorem made_by_worker {o : Options} {G : Guard} {p : PoolEvent → Bool} {q : Work → Bool}
    (start : ∀ w, q ⟨w, false, .recv⟩ = false)
    (worker : ∀ x i a t s' t' new, x.threads[i]? = some t → Thread.Step o i x.shared t s' t' new →
      p ⟨x, .step i a, x.after i (s', t', new)⟩ = true → ∃ u, t = .work u)
    (step : ∀ x i a t s' t', x.threads[i]? = some (.work t) → t.next x.shared a = some (s', t') →
      (if q t' then 1 else 0 : ℤ) =
        (if p ⟨x, .step i a, x.after i (s', .work t', [])⟩ then 1 else 0) + if q t then 1 else 0)
    {h : List PoolEvent} {x : Config} (hx : Traced o G h x) {i : ℕ} {t : Work}
    (ht : x.threads[i]? = some (.work t)) : made p i h = if q t then 1 else 0 := by
  refine Program.Trace.tally_inv (φ := fun t n => n = t.phase q) ?_ ?_ ?_ ?_ hx ht
  · intro y hy u hu
    rcases hy.fresh.threads u hu with rfl | rfl | rfl <;> rfl
  · intro j c
    cases c <;> rfl
  · intro s j u a r hn v hv
    rcases (program_step hn).new_cases hv with ⟨w, rfl⟩ | rfl | rfl
    · simp [Thread.phase, start w]
    · rfl
    · rfl
  · rintro y j a u ⟨s', u', new⟩ n _ hu hn rfl
    have hs := program_step hn
    cases u with
    | work u =>
        obtain ⟨⟨s', u'⟩, hr, heq⟩ := Option.map_eq_some_iff.mp hn
        cases heq
        exact (step y j a u s' u' hu hr).symm
    | _ =>
        have hp : p ⟨y, .step j a, y.after j (s', u', new)⟩ = false := by
          by_contra hp
          obtain ⟨v, hv⟩ := worker y j a _ s' u' new hu hs (by simpa using hp)
          cases hv
        rw [hp]
        cases hs
        rfl

namespace Traced
variable {o : Options} {G : Guard} {h : List PoolEvent} {x : Config}

theorem lowered_eq (hx : Traced o G h x) {i : ℕ} {t : Work} (ht : x.threads[i]? = some (.work t)) :
    made lowersRunning i h = if t.pc.counted then 0 else 1 := by
  have hmade := made_by_worker (p := lowersRunning) (q := fun t => !t.pc.counted)
    (fun _ => rfl) ?_ ?_ hx ht
  · rw [hmade]
    cases t.pc.counted <;> rfl
  · intro y j a u s' u' new _ hs hp
    obtain ⟨v, hv, _⟩ := hs.lowers_iff.mp (of_decide_eq_true hp)
    exact ⟨v, hv⟩
  · intro y j a u s' u' _ hn
    have hs := Work.next_step hn
    have hp : s'.running = y.shared.running - 1 ↔ u.pc = .exit := by
      simpa using (Thread.Step.work (o := o) (i := j) hs).lowers_iff
    simp only [lowersRunning, Config.after, decide_eq_true_eq, hp]
    cases hs <;> rfl

theorem cached_eq (hx : Traced o G h x) {i : ℕ} {t : Work} (ht : x.threads[i]? = some (.work t)) :
    made (caches t.worker) i h = if t.pc.serves then 0 else 1 := by
  have hmade := made_by_worker (p := caches t.worker)
    (q := fun u => decide (u.worker = t.worker) && !u.pc.serves)
    (fun _ => by simp [WorkerPc.serves]) ?_ ?_ hx ht
  · rw [hmade]
    cases t.pc.serves <;> simp
  · intro y j a u s' u' new _ hs hp
    obtain ⟨v, hv, _⟩ := (hs.caches_iff t.worker).mp (of_decide_eq_true hp)
    exact ⟨v, hv⟩
  · intro y j a u s' u' _ hn
    have hs := Work.next_step hn
    have hp : s'.workerCache = t.worker :: y.shared.workerCache ↔
        u.worker = t.worker ∧ u.pc = .recycle := by
      simpa using (Thread.Step.work (o := o) (i := j) hs).caches_iff t.worker
    simp only [caches, Config.after, decide_eq_true_eq, hp]
    cases hs <;> simp [WorkerPc.serves]

theorem signalled_eq (hx : Traced o G h x) {i : ℕ} {t : Work}
    (ht : x.threads[i]? = some (.work t)) :
    made wakesOne i h = if t.pc = .returned then 1 else 0 := by
  have hmade := made_by_worker (p := wakesOne) (q := fun t => decide (t.pc = .returned))
    (fun _ => rfl) ?_ ?_ hx ht
  · simpa only [decide_eq_true_eq] using hmade
  · intro y j a u s' u' new hu _ hp
    simp only [wakesOne, Event.actor, hu] at hp
    cases u with
    | work u => exact ⟨u, rfl⟩
    | _ => cases hp
  · intro y j a u s' u' hu hn
    simp only [wakesOne, Event.actor, hu]
    cases Work.next_step hn <;> rfl

theorem failed_eq (hx : Traced o G h x) {i : ℕ} {t : Work} (ht : x.threads[i]? = some (.work t)) :
    made handlerPanics i h = if t.pc = .unwound then 1 else 0 := by
  have hmade := made_by_worker (p := handlerPanics) (q := fun t => decide (t.pc = .unwound))
    (fun _ => rfl) ?_ ?_ hx ht
  · simpa only [decide_eq_true_eq] using hmade
  · intro y j a u s' u' new hu _ hp
    simp only [handlerPanics, Event.actor, hu] at hp
    cases u with
    | work u => exact ⟨u, rfl⟩
    | _ => cases hp
  · intro y j a u s' u' hu hn
    simp only [handlerPanics, Event.actor, hu]
    by_cases hpc : u.pc = .report
    · obtain ⟨w, b, pc⟩ := u
      obtain rfl : pc = .report := hpc
      cases hn
      cases a <;> rfl
    · cases Work.next_step hn <;> first | rfl | exact absurd rfl hpc

/-- A signal leaves a token for the callers that are parked. -/
theorem token_of_wakesOne (hx : Traced o G h x) {e : PoolEvent} (he : e ∈ h)
    (hs : wakesOne e = true) (hp : 0 < e.before.shared.cond.parked) :
    0 < e.after.shared.cond.tokens := by
  obtain ⟨before, m, after⟩ := e
  cases m with
  | call c => cases hs
  | step i a =>
      have hf : (program o).fire before (.step i a) = some after := (hx.fired he).2
      obtain ⟨t, r, ht, hn, rfl⟩ := Program.fire_step _ hf
      simp only [wakesOne, Event.actor, ht] at hs
      cases t with
      | work t =>
          obtain ⟨w, b, pc⟩ := t
          obtain rfl : pc = .signal := of_decide_eq_true hs
          cases hn
          have htokens := before.shared.cond.signal_tokens
          change 0 < before.shared.cond.parked at hp
          change 0 < before.shared.cond.signal.tokens
          omega
      | _ => cases hs

end Traced

/-- The three effects of the epilogue of thread `i` with worker `w`, each of them once. -/
def CompleteExit (i w : ℕ) (h : List PoolEvent) : Prop :=
  made lowersRunning i h = 1 ∧ made (caches w) i h = 1 ∧ made wakesOne i h = 1

/-- However a worker's thread leaves its loop, its epilogue runs to its end; once the
thread is over it has lowered `running` once and cached its worker once, and it has
signalled once exactly when no panic handler and no logger panicked in it. -/
theorem exit_complete_iff {o : Options} {h : List PoolEvent} {x : Config}
    (hx : Traced o anyMove h x) {i : ℕ} {t : Work} (ht : x.threads[i]? = some (.work t)) :
    (0 < t.pc.left → ∀ env, ∃ s' t', t.next x.shared env = some (s', t') ∧
      t'.pc.left < t.pc.left ∧ (t'.pc.left = 0 → t'.pc.ended = true)) ∧
    (t.pc.ended = true →
      made lowersRunning i h = 1 ∧ made (caches t.worker) i h = 1 ∧
      (CompleteExit i t.worker h ↔ made handlerPanics i h = 0)) ∧
    ∀ e ∈ h, wakesOne e = true → 0 < e.before.shared.cond.parked →
      0 < e.after.shared.cond.tokens := by
  refine ⟨Work.epilogue_progress x.shared, fun hend => ?_, fun e he => hx.token_of_wakesOne he⟩
  have hlow := hx.lowered_eq ht
  have hcache := hx.cached_eq ht
  have hsignal := hx.signalled_eq ht
  have hfail := hx.failed_eq ht
  unfold CompleteExit
  obtain ⟨w, b, pc⟩ := t
  cases pc with
  | returned | unwound =>
      simp only [WorkerPc.counted, WorkerPc.serves, Bool.false_eq_true, if_false, reduceCtorEq,
        if_true] at hlow hcache hsignal hfail
      simp [hlow, hcache, hsignal, hfail]
  | _ => cases hend

/-- A caller starts the only worker of a small pool, and a second one blocks behind it. -/
def crowdedMoves : List Move :=
  .call (.submit false) :: steps 2 7 ++ .call (.submit false) :: steps 4 5 ++ steps 3 1

/-- The payload panics, the worker's thread exits, and its handler returns. -/
theorem exit_complete_iff_reported :
    ∃ h x, Traced smallOptions anyMove h x ∧ x.threads[3]? = some (.work ⟨0, true, .returned⟩) ∧
      made handlerPanics 3 h = 0 ∧ CompleteExit 3 0 h := by
  obtain ⟨h, x, hx, hφ⟩ := Program.Trace.exists_of_trace (P := program smallOptions)
    (I := Starts smallOptions) (G := anyMove) (x := smallPool)
    (m := crowdedMoves ++ .step 3 .fault :: steps 3 5)
    (φ := fun h x => decide (x.threads[3]? = some (Thread.work ⟨0, true, .returned⟩) ∧
      made handlerPanics 3 h = 0))
    smallPool_starts (by decide)
  obtain ⟨ht, hfail⟩ := of_decide_eq_true hφ
  exact ⟨h, x, hx, ht, hfail, ((exit_complete_iff hx ht).2.1 rfl).2.2.mpr hfail⟩

/-- The handler panics as well: the thread is over without a signal, and the second
caller stays blocked beside a free slot. -/
theorem exit_without_signal :
    ∃ h x, Traced smallOptions anyMove h x ∧ x.threads[3]? = some (.work ⟨0, true, .unwound⟩) ∧
      ¬ CompleteExit 3 0 h ∧ made wakesOne 3 h = 0 ∧
      x.threads[4]? = some (.submit ⟨⟨4, false⟩, true, .parked 0⟩) ∧
      x.shared.cond.poll 0 = none ∧ x.shared.state = .opened ∧
      x.shared.running = 0 ∧ x.shared.capacity = 1 := by
  obtain ⟨h, x, hx, hφ⟩ := Program.Trace.exists_of_trace (P := program smallOptions)
    (I := Starts smallOptions) (G := anyMove) (x := smallPool)
    (m := crowdedMoves ++ .step 3 .fault :: steps 3 3 ++ [.step 3 .fault])
    (φ := fun h x => decide (x.threads[3]? = some (Thread.work ⟨0, true, .unwound⟩) ∧
      made wakesOne 3 h = 0 ∧ x.threads[4]? = some (Thread.submit ⟨⟨4, false⟩, true, .parked 0⟩) ∧
      x.shared.cond.poll 0 = none ∧ x.shared.state = .opened ∧
      x.shared.running = 0 ∧ x.shared.capacity = 1))
    smallPool_starts (by decide)
  obtain ⟨ht, hsignal, hrest⟩ := of_decide_eq_true hφ
  refine ⟨h, x, hx, ht, ?_, hsignal, hrest⟩
  intro hcomplete
  exact absurd (hsignal.symm.trans hcomplete.2.2) (by decide)

end AntsPool
