import AntsPool.Barrier
import AntsPool.Closing
import AntsPool.MultiPoolSteps
import AntsPool.Traces

/-!
# What `release_context` of a multi-pool gathers

The call makes one `release_context` on every pool, waits for them in the order of the
pools and reports the ones that failed. While it waits its pools go on, so it has to be
shown that a call keeps its place and that what it returned does not change.
-/
namespace AntsPool
open Interleaving

/-- A call that has returned takes no step. -/
theorem Thread.Step.result {o : Options} {c : Config} {i : ℕ} {s s' : PoolCore} {t t' : Thread}
    {new : List Thread} (h : Thread.Step o i s t s' t' new) (ht : c.threads[i]? = some t) :
    MultiPool.result c i = none := by
  rw [MultiPool.result, ht]
  cases h with
  | submit h => cases h <;> rfl
  | release h => cases h <;> rfl
  | reboot h => cases h <;> rfl
  | tune h => cases h <;> rfl
  | _ => rfl

namespace Call

/-- The thread of a call, wherever it is. -/
def runs : Call → Thread → Bool
  | .submit _, .submit _ | .tune _, .tune _ | .reboot, .reboot _ => true
  | .release, .release t => t.mode = .plain
  | .releaseContext hasCtx, .release t => t.mode = .context hasCtx
  | _, _ => false

theorem runs_start (d : Call) (i : ℕ) : d.runs (d.start i) = true := by
  cases d <;> simp [runs, start]

end Call

theorem Release.Step.mode {o : Options} {i : ℕ} {s s' : PoolCore} {t t' : Release}
    (h : Release.Step o i s t s' t') : t'.mode = t.mode := by
  cases h <;> rfl

theorem Thread.Step.runs {o : Options} {i : ℕ} {s s' : PoolCore} {t t' : Thread}
    {new : List Thread} (h : Thread.Step o i s t s' t' new) (d : Call) : d.runs t' = d.runs t := by
  cases h with
  | release h => cases d <;> simp only [Call.runs, h.mode]
  | _ => cases d <;> rfl

namespace MultiPool

/-- Call number `i` on pool `k` is the call `d`. -/
def Called (pools : List Config) (d : Call) (k i : ℕ) : Prop :=
  ∃ c t, pools[k]? = some c ∧ c.threads[i]? = some t ∧ d.runs t = true

/-- One pool later on: its calls keep their places and what they returned. -/
structure Keeps (c c' : Config) : Prop where
  thread : ∀ (i : ℕ) (t : Thread), c.threads[i]? = some t →
    ∃ t' : Thread, c'.threads[i]? = some t' ∧ ∀ d : Call, d.runs t' = d.runs t
  result : ∀ i r, result c i = some r → result c' i = some r

theorem result_congr {c c' : Config} {i : ℕ} (h : c'.threads[i]? = c.threads[i]?) :
    result c' i = result c i := by
  rw [result, result, h]

theorem lt_of_result {c : Config} {i : ℕ} {r : Option Error} (h : result c i = some r) :
    i < c.threads.length := by
  by_contra hle
  rw [result, List.getElem?_eq_none_iff.mpr (not_lt.mp hle)] at h
  cases h

theorem Keeps.fire {o : Options} {c c' : Config} {i : ℕ} {a : Env}
    (hc : (AntsPool.program o).fire c (.step i a) = some c') : Keeps c c' := by
  obtain ⟨t, ⟨s', t', new⟩, ht, hn, rfl⟩ := Program.fire_step _ hc
  have hs := AntsPool.program_step hn
  refine ⟨fun j u hu => ?_, fun j r hr => ?_⟩
  · by_cases hj : j = i
    · subst hj
      cases ht.symm.trans hu
      exact ⟨t', Config.getElem?_after_self ht, hs.runs⟩
    · exact ⟨u, Config.getElem?_after_ne hj hu, fun _ => rfl⟩
  · by_cases hj : j = i
    · subst hj
      exact (Option.some_ne_none r (hr.symm.trans (hs.result ht))).elim
    · have hu := List.getElem?_eq_getElem (lt_of_result hr)
      rw [result_congr ((Config.getElem?_after_ne hj hu).trans hu.symm)]
      exact hr

theorem Keeps.entered {o : Options} (c : Config) (d : Call) :
    Keeps c ((AntsPool.program o).entered c d) := by
  have hold : ∀ i, i < c.threads.length →
      ((AntsPool.program o).entered c d).threads[i]? = c.threads[i]? := fun i hi =>
    List.getElem?_append_left hi
  refine ⟨fun i t hi => ?_, fun i r hr => ?_⟩
  · exact ⟨t, (hold i (List.getElem?_eq_some_iff.mp hi).1).trans hi, fun _ => rfl⟩
  · rw [result_congr (hold i (lt_of_result hr))]
    exact hr

/-- The pools later on. -/
structure Later (pools pools' : List Config) : Prop where
  length : pools'.length = pools.length
  keeps : ∀ (k : ℕ) (c : Config), pools[k]? = some c → ∃ c', pools'[k]? = some c' ∧ Keeps c c'

theorem Later.called {pools pools' : List Config} (h : Later pools pools') {d : Call} {k i : ℕ}
    (hr : Called pools d k i) : Called pools' d k i := by
  obtain ⟨c, t, hk, hi, hd⟩ := hr
  obtain ⟨c', hk', hc⟩ := h.keeps k c hk
  obtain ⟨t', hi', ht'⟩ := hc.thread i t hi
  exact ⟨c', t', hk', hi', (ht' d).trans hd⟩

theorem Later.result {pools pools' : List Config} (h : Later pools pools') {k i : ℕ}
    {r : Option Error} (hr : resultAt pools k i = some r) : resultAt pools' k i = some r := by
  obtain ⟨c, hk, hi⟩ := Option.bind_eq_some_iff.mp hr
  obtain ⟨c', hk', hc⟩ := h.keeps k c hk
  exact Option.bind_eq_some_iff.mpr ⟨c', hk', hc.result i r hi⟩

theorem Keeps.refl (c : Config) : Keeps c c :=
  ⟨fun _ t hi => ⟨t, hi, fun _ => rfl⟩, fun _ _ => id⟩

theorem Later.set {pools : List Config} {k : ℕ} {c c' : Config} (hk : pools[k]? = some c)
    (hc : Keeps c c') : Later pools (pools.set k c') := by
  refine ⟨List.length_set, fun l d hl => ?_⟩
  rcases eq_or_ne k l with rfl | hne
  · cases hk.symm.trans hl
    exact ⟨c', List.getElem?_set_self (List.getElem?_eq_some_iff.mp hk).1, hc⟩
  · exact ⟨d, (List.getElem?_set_ne hne).trans hl, .refl d⟩

theorem Later.enter (o : Options) (pools : List Config) (call : Option (ℕ × Call)) :
    Later pools ((AntsPool.program o).enter pools call) := by
  refine ⟨Facade.length_enter _ _, fun k c hk => ?_⟩
  obtain ⟨c', hk'⟩ : ∃ c', ((AntsPool.program o).enter pools call)[k]? = some c' :=
    ⟨_, List.getElem?_eq_getElem ((Facade.length_enter _ _).symm ▸
      (List.getElem?_eq_some_iff.mp hk).1)⟩
  rcases Facade.enter_cases hk' with ⟨hold, _⟩ | ⟨d, call, hd, _, rfl⟩
  · cases hk.symm.trans hold
    exact ⟨c, hk', .refl c⟩
  · cases hk.symm.trans hd
    exact ⟨_, hk', .entered c call⟩

/-- A call has its number when it is made. -/
theorem called_enter (o : Options) {pools : List Config} {k : ℕ} (hk : k < pools.length) (d : Call) :
    Called ((AntsPool.program o).enter pools (some (k, d))) d k (nextCall pools k) := by
  have hc := List.getElem?_eq_getElem hk
  refine ⟨_, d.start (nextCall pools k), (Facade.getElem?_enter_self _ _ _).trans (congrArg _ hc),
    ?_, d.runs_start _⟩
  rw [nextCall, hc]
  exact List.getElem?_concat_length

/-! ## What the clients have called -/

/-- What `release_pools` makes of the results, one for each pool. -/
def outcomes (results : List (Option Error)) : List (Option Error) :=
  results.mapIdx fun k r => r.map fun err => .pools (segment k err)

/-- The segments of the pools that failed, in the order of the pools. -/
def failures (results : List (Option Error)) : List String :=
  results.zipIdx.filterMap fun p => p.1.map (segment p.2)

theorem filterMap_outcomes (results : List (Option Error)) :
    (outcomes results).filterMap (fun r => r.map Error.message) = failures results := by
  rw [outcomes, List.mapIdx_eq_zipIdx_map, List.filterMap_map, failures]
  congr 1
  funext p
  rw [Function.comp_apply, Option.map_map]
  rfl

theorem failures_eq_nil_iff (results : List (Option Error)) :
    failures results = [] ↔ ∀ q ∈ results, q = none := by
  simp only [failures, List.filterMap_eq_nil_iff, Option.map_eq_none_iff]
  constructor
  · intro h q hq
    obtain ⟨k, hk⟩ := List.mem_iff_getElem?.mp hq
    exact h (q, k) (List.mem_zipIdx_iff_getElem?.mpr hk)
  · exact fun h p hp => h p.1 (List.mem_of_getElem? (List.mem_zipIdx_iff_getElem?.mp hp))

theorem aggregate_eq_none_iff (results : List (Option Error)) :
    aggregate (outcomes results) = none ↔ ∀ q ∈ results, q = none := by
  rw [← failures_eq_nil_iff, aggregate, filterMap_outcomes]
  cases failures results with
  | nil => exact iff_of_true rfl rfl
  | cons f rest => exact iff_of_false (Option.some_ne_none _) (List.cons_ne_nil f rest)

theorem message_of_aggregate {results : List (Option Error)} {e : Error}
    (h : aggregate (outcomes results) = some e) :
    e.message = " | ".intercalate (failures results) := by
  rw [aggregate, filterMap_outcomes] at h
  split at h
  · cases h
  · cases h
    rfl

/-- The calls made on the first pools, and what the first of them returned. -/
structure Gathered (pools : List Config) (hasCtx : Bool) (calls : List ℕ)
    (results : List (Option Error)) : Prop where
  made : ∀ k i, calls[k]? = some i → Called pools (.releaseContext hasCtx) k i
  returned : ∀ k i r, calls[k]? = some i → results[k]? = some r → resultAt pools k i = some r

theorem Gathered.later {pools pools' : List Config} (hp : Later pools pools') {b : Bool}
    {calls : List ℕ} {results : List (Option Error)} (h : Gathered pools b calls results) :
    Gathered pools' b calls results :=
  ⟨fun k i hi => hp.called (h.made k i hi), fun k i r hi hr => hp.result (h.returned k i r hi hr)⟩

/-- The calls have all returned, and `r` is what comes of their results. -/
def Reported (pools : List Config) (hasCtx : Bool) (calls : List ℕ) (r : Option Error) : Prop :=
  ∃ results, calls.length = pools.length ∧ results.length = pools.length ∧
    Gathered pools hasCtx calls results ∧ r = aggregate (outcomes results)

theorem Reported.later {pools pools' : List Config} (hp : Later pools pools') {b : Bool}
    {calls : List ℕ} {r : Option Error} (h : Reported pools b calls r) :
    Reported pools' b calls r := by
  obtain ⟨results, hlen, hres, hg, hr⟩ := h
  exact ⟨results, hp.length ▸ hlen, hp.length ▸ hres, hg.later hp, hr⟩

namespace ReleaseContextPc

/-- What a call has gathered by the time it is at `pc`. -/
def Gathers (pools : List Config) (hasCtx : Bool) : ReleaseContextPc → Prop
  | .exchange => True
  | .spawn handles => handles.length ≤ pools.length ∧ Gathered pools hasCtx handles []
  | .join handles joined => handles.length = pools.length ∧
      ∃ results, joined = outcomes results ∧ results.length ≤ pools.length ∧
        Gathered pools hasCtx handles results
  | .returned r => r = some .poolClosed ∨ ∃ handles, Reported pools hasCtx handles r

theorem Gathers.later {pools pools' : List Config} (hp : Later pools pools') {b : Bool}
    {pc : ReleaseContextPc} (h : pc.Gathers pools b) : pc.Gathers pools' b := by
  cases pc with
  | exchange => trivial
  | spawn handles => exact ⟨hp.length ▸ h.1, h.2.later hp⟩
  | join handles joined =>
      obtain ⟨hlen, results, rfl, hle, hg⟩ := h
      exact ⟨hp.length ▸ hlen, results, rfl, hp.length ▸ hle, hg.later hp⟩
  | returned r => exact h.imp_right fun ⟨handles, hr⟩ => ⟨handles, hr.later hp⟩

/-- With the last result the call has its report. -/
theorem Gathers.reported {pools : List Config} {b : Bool} {handles : List ℕ}
    {joined : List (Option Error)} (h : (join handles joined).Gathers pools b)
    (hle : handles.length ≤ joined.length) : Reported pools b handles (aggregate joined) := by
  obtain ⟨hlen, results, rfl, hres, hg⟩ := h
  rw [outcomes, List.length_mapIdx, hlen] at hle
  exact ⟨results, hlen, le_antisymm hres hle, hg, rfl⟩

theorem Step.gathers {o : Options} {s s' : MultiPoolCore} {pools : List Config} {b : Bool}
    {pc pc' : ReleaseContextPc} {call : Option (ℕ × Call)} (h : Step s pools b pc s' pc' call)
    (hg : pc.Gathers pools b) : pc'.Gathers ((AntsPool.program o).enter pools call) b := by
  cases h with
  | refused => exact .inl rfl
  | exchange =>
      refine ⟨Nat.zero_le _, ⟨fun k i hi => ?_, fun k i r hi => ?_⟩⟩ <;> cases hi
  | @spawn handles hlt =>
      obtain ⟨hle, hg⟩ := hg
      have hlater := Later.enter o pools (some (handles.length, .releaseContext b))
      refine ⟨?_, ⟨fun k i hi => ?_, fun k i r _ hr => ?_⟩⟩
      · rw [Facade.length_enter, List.length_append]
        exact hlt
      · rcases getElem?_concat_cases hi with hi | ⟨rfl, rfl⟩
        · exact hlater.called (hg.made k i hi)
        · exact called_enter o hlt (.releaseContext b)
      · cases hr
  | spawned hle =>
      exact ⟨le_antisymm hg.1 hle, [], rfl, Nat.zero_le _, hg.2⟩
  | @joined handles joined hle => exact .inr ⟨handles, Gathers.reported hg hle⟩
  | @join handles joined i r hi hr =>
      obtain ⟨hlen, results, rfl, hres, hg⟩ := hg
      have hlength : (outcomes results).length = results.length := List.length_mapIdx
      rw [hlength] at hi hr ⊢
      have hlt := (List.getElem?_eq_some_iff.mp hi).1
      refine ⟨hlen, results ++ [r], List.mapIdx_concat.symm, ?_, hg.made, fun k j q hj hq => ?_⟩
      · rw [List.length_append]
        exact hlen ▸ hlt
      · rcases getElem?_concat_cases hq with hq | ⟨rfl, rfl⟩
        · exact hg.returned k j q hj hq
        · cases hi.symm.trans hj
          exact hr

end ReleaseContextPc

/-- What a client knows of its calls. -/
def Client.Calls (pools : List Config) : Client → Prop
  | .dispatch t =>
      match t.pc with
      | .deliver k => k < pools.length
      | .scan _ _ index => index < pools.length
      | .await k i => Called pools (.submit t.stop) k i
      | .panicked => False
      | _ => True
  | .releaseContext hasCtx pc => pc.Gathers pools hasCtx
  | .reboot (.await k i) => Called pools .reboot k i
  | .tune size (.await k i) => Called pools (.tune size) k i
  | _ => True

theorem Client.Calls.later {pools pools' : List Config} (hp : Later pools pools') {t : Client}
    (h : t.Calls pools) : t.Calls pools' := by
  cases t with
  | dispatch t =>
      obtain ⟨n, f, l, pc⟩ := t
      cases pc with
      | deliver => exact lt_of_lt_of_eq h hp.length.symm
      | scan => exact lt_of_lt_of_eq h hp.length.symm
      | await => exact hp.called h
      | _ => exact h
  | releaseContext => exact ReleaseContextPc.Gathers.later hp h
  | reboot pc =>
      cases pc with
      | await => exact hp.called h
      | _ => exact h
  | tune size pc =>
      cases pc with
      | await => exact hp.called h
      | _ => exact h

theorem Client.Step.calls {o : Options} {s s' : MultiPoolCore} {pools : List Config}
    {t t' : Client} {call : Option (ℕ × Call)} (h : Client.Step s pools t s' t' call)
    (hl : s.lbs = roundRobin ∨ s.lbs = leastTasks) (hpos : 0 < pools.length)
    (hg : t.Calls pools) : t'.Calls ((AntsPool.program o).enter pools call) := by
  cases h with
  | dispatch h =>
      cases h with
      | closed | returned => trivial
      | opened =>
          rcases hl with hl | hl <;> rw [hl]
          · trivial
          · exact hpos
      | ticket => exact Nat.mod_lt _ hpos
      | scanned | scanNext => exact hg
      | scanLess hk => exact (List.getElem?_eq_some_iff.mp hk).1
      | deliver => exact called_enter o hg _
      | fallback => exact hpos
  | releaseContext h => exact h.gathers hg
  | reboot h =>
      cases h with
      | call hlt => exact called_enter o hlt _
      | _ => trivial
  | tune h =>
      cases h with
      | call hlt => exact called_enter o hlt _
      | _ => trivial

/-- In every run each client has made the calls that it waits for. -/
theorem Run.calls {o : Options} {G : Guard} {x : State} (h : Run o G x) {t : Client}
    (ht : .client t ∈ x.threads) : t.Calls x.shared.members := by
  refine Run.invariant (J := fun x => ∀ t, .client t ∈ x.threads → t.Calls x.shared.members)
    ?_ ?_ ?_ ?_ h t ht
  · intro y hy t ht
    rw [hy.threads] at ht
    cases List.mem_singleton.mp ht
  · intro y d _ hy _ t ht
    rcases List.mem_append.mp ht with ht | ht
    · exact hy t ht
    · cases List.mem_singleton.mp ht
      cases d <;> trivial
  · intro y j k i a c c' _ hy _ hk hc t ht
    exact (hy t ht).later (.set hk (.fire hc))
  · intro y j u s' u' call hr hy _ hj hs t ht
    rcases Config.mem_after ht with ht | hu | ht
    · exact (hy t ht).later (.enter o _ call)
    · cases hu
      exact hs.calls hr.shape.1 hr.shape.2 (hy u (List.mem_of_getElem? hj))
    · cases ht

/-! ## The calls of one client -/

abbrev Record := Event (Group MultiPoolCore PoolCore Thread) (Role Client) Request (Turn Env)

/-- The call that a step of client `j` makes: the pool, its number there and what it is. -/
def callBy (j : ℕ) (e : Record) : Option (ℕ × ℕ × Call) :=
  if e.isStepOf j then
    match e.actor with
    | some (.client t) =>
        (t.next e.before.shared.head e.before.shared.members).bind fun r =>
          r.2.2.map fun c => (c.1, nextCall e.before.shared.members c.1, c.2)
    | _ => none
  else none

/-- The calls that client `j` has made, in their order. -/
def callsBy (j : ℕ) (h : List Record) : List (ℕ × ℕ × Call) := h.reverse.filterMap (callBy j)

theorem callsBy_cons (j : ℕ) (h : List Record) (e : Record) :
    callsBy j (e :: h) = callsBy j h ++ (callBy j e).toList := by
  rw [callsBy, List.reverse_cons, List.filterMap_append, callsBy]
  cases hc : callBy j e <;> simp [hc]

theorem callsBy_of_none {j : ℕ} {h : List Record} {e : Record}
    (he : callBy j e = none) : callsBy j (e :: h) = callsBy j h := by
  rw [callsBy_cons, he, Option.toList_none, List.append_nil]

/-- The steps of the others, and those inside the pools, are no calls of a client. -/
theorem callBy_other {i j : ℕ} {x y : State} {a : Turn Env}
    (h : j ≠ i ∨ x.threads[i]? = some .members) : callBy j ⟨x, .step i a, y⟩ = none := by
  unfold callBy
  split_ifs with hs
  · obtain rfl : i = j := beq_iff_eq.mp hs
    simp only [Event.actor, h.resolve_left fun hne => hne rfl]
  · rfl

theorem callBy_self {j : ℕ} {x y : State} {a : Turn Env} {t t' : Client} {s' : MultiPoolCore}
    {call : Option (ℕ × Call)} (hj : x.threads[j]? = some (.client t))
    (hn : t.next x.shared.head x.shared.members = some (s', t', call)) :
    callBy j ⟨x, .step j a, y⟩ = call.map fun c => (c.1, nextCall x.shared.members c.1, c.2) := by
  simp only [callBy, Event.isStepOf, Event.actor, hj, hn, beq_self_eq_true, if_true,
    Option.bind_some]

/-- A client that has just come in has made no call. -/
theorem callsBy_new {I : State → Prop} {o : Options} {G : Guard} {h : List Record} {x : State}
    (hx : (program o).Trace I G h x) : callsBy x.threads.length h = [] :=
  List.filterMap_eq_nil_iff.mpr fun _ he => if_neg fun hs =>
    (hx.isStepOf_lt (List.mem_reverse.mp he) hs).ne rfl

/-- One `release_context` on each pool. -/
def listed (hasCtx : Bool) (calls : List ℕ) : List (ℕ × ℕ × Call) :=
  calls.mapIdx fun k i => (k, i, .releaseContext hasCtx)

/-- What a call has made of calls on the pools by the time it is at `pc`. -/
def ReleaseContextPc.Makes (pools : List Config) (hasCtx : Bool) (l : List (ℕ × ℕ × Call)) :
    ReleaseContextPc → Prop
  | .exchange => l = []
  | .spawn handles | .join handles _ => l = listed hasCtx handles
  | .returned r => (r = some .poolClosed ∧ l = []) ∨
      ∃ handles, l = listed hasCtx handles ∧ Reported pools hasCtx handles r

theorem ReleaseContextPc.Makes.later {pools pools' : List Config} (hp : Later pools pools')
    {b : Bool} {l : List (ℕ × ℕ × Call)} {pc : ReleaseContextPc} (h : pc.Makes pools b l) :
    pc.Makes pools' b l := by
  cases pc with
  | returned r => exact h.imp_right fun ⟨handles, hl, hr⟩ => ⟨handles, hl, hr.later hp⟩
  | _ => exact h

theorem ReleaseContextPc.Step.makes {o : Options} {s s' : MultiPoolCore} {pools : List Config}
    {b : Bool} {pc pc' : ReleaseContextPc} {call : Option (ℕ × Call)} {l : List (ℕ × ℕ × Call)}
    (h : Step s pools b pc s' pc' call) (hg : pc.Gathers pools b) (hm : pc.Makes pools b l) :
    pc'.Makes ((AntsPool.program o).enter pools call) b
      (l ++ (call.map fun c => (c.1, nextCall pools c.1, c.2)).toList) := by
  cases h with
  | refused =>
      rw [Option.map_none, Option.toList_none, List.append_nil]
      exact .inl ⟨rfl, hm⟩
  | spawn =>
      obtain rfl : l = listed b _ := hm
      exact List.mapIdx_concat.symm
  | joined hle =>
      rw [Option.map_none, Option.toList_none, List.append_nil]
      exact .inr ⟨_, hm, Gathers.reported hg hle⟩
  | exchange | spawned | join =>
      rw [Option.map_none, Option.toList_none, List.append_nil]
      exact hm

/-- In every run the calls of a client that releases the pools are those it knows of. -/
theorem calls_of_trace {o : Options} {G : Guard} {h : List Record} {x : State}
    (hx : (program o).Trace (Starts o) G h x) {j : ℕ} {b : Bool} {pc : ReleaseContextPc}
    (hj : x.threads[j]? = some (.client (.releaseContext b pc))) :
    pc.Makes x.shared.members b (callsBy j h) := by
  refine Program.Trace.invariant (J := fun h x => ∀ j b pc,
    x.threads[j]? = some (.client (.releaseContext b pc)) →
      pc.Makes x.shared.members b (callsBy j h)) ?_ ?_ ?_ hx j b pc hj
  · intro y hy j b pc hj
    have hmem := List.mem_of_getElem? hj
    rw [hy.fresh.threads] at hmem
    cases List.mem_singleton.mp hmem
  · intro h y c hy ih _ j b pc hj
    rw [callsBy_of_none rfl]
    rcases getElem?_concat_cases hj with hold | ⟨rfl, hnew⟩
    · exact ih j b pc hold
    · cases c <;> cases hnew
      exact callsBy_new hy
  · intro h y i a t r hy ih _ ht hn j b pc hj
    obtain ⟨hs, hnew⟩ := Facade.program_step hn
    obtain ⟨g, t', new⟩ := r
    cases hnew
    cases hs with
    | @member k m a c c' hk hc =>
        rw [callsBy_of_none (callBy_other (.inr ht))]
        rcases Config.getElem?_after ht hj with ⟨_, hself⟩ | ⟨_, hold⟩ | ⟨_, hmem⟩
        · cases hself
        · exact (ih j b pc hold).later (.set hk (.fire hc))
        · cases hmem
    | @client u s' u' call hnext =>
        rcases Config.getElem?_after ht hj with ⟨rfl, hself⟩ | ⟨hne, hold⟩ | ⟨_, hmem⟩
        · cases hself
          rw [callsBy_cons, callBy_self ht hnext]
          cases Client.next_step hnext with
          | releaseContext hs =>
              exact hs.makes (Run.calls hy.reach (List.mem_of_getElem? ht)) (ih j b _ ht)
        · rw [callsBy_of_none (callBy_other (.inl hne))]
          exact (ih j b pc hold).later (.enter o _ call)
        · cases hmem

/-- A `release_context` of the multi-pool that was refused has made no call. Any other has
made exactly one call on every pool, a `release_context`, and every one has returned. It
returns `Ok` if they all have, and otherwise an error that shows the failures alone, by
pool and in the order of the pools. -/
theorem release_pools_gathers {o : Options} {G : Guard} {h : List Record} {x : State}
    (hx : (program o).Trace (Starts o) G h x) {j : ℕ} {b : Bool} {r : Option Error}
    (hj : x.threads[j]? = some (.client (.releaseContext b (.returned r)))) :
    (r = some .poolClosed ∧ callsBy j h = []) ∨
    ∃ (calls : List ℕ) (results : List (Option Error)),
      callsBy j h = listed b calls ∧
      calls.length = x.shared.members.length ∧ results.length = x.shared.members.length ∧
      Gathered x.shared.members b calls results ∧ (r = none ↔ ∀ q ∈ results, q = none) ∧
      ∀ e, r = some e → e.message = " | ".intercalate (failures results) := by
  refine (calls_of_trace hx hj).imp_right ?_
  rintro ⟨calls, hl, results, hcalls, hresults, hg, rfl⟩
  exact ⟨calls, results, hl, hcalls, hresults, hg, aggregate_eq_none_iff results,
    fun e => message_of_aggregate⟩

/-- A worker of the first of two pools is running, and the context is past its deadline
when the pool waits for it. -/
theorem release_pools_gathers_small :
    ∃ h x, (program smallOptions).Trace (Starts smallOptions) (fun _ _ => True) h x ∧
      x.threads[2]? = some (.client (.releaseContext true
        (.returned (some (.pools "pool 0: context deadline exceeded"))))) ∧
      ∃ (calls : List ℕ) (results : List (Option Error)),
        callsBy 2 h = listed true calls ∧
        calls.length = x.shared.members.length ∧ results.length = x.shared.members.length ∧
        Gathered x.shared.members true calls results ∧
        "pool 0: context deadline exceeded" = " | ".intercalate (failures results) := by
  obtain ⟨h, x, hx, hφ⟩ := Program.Trace.exists_of_trace
    (P := program smallOptions) (I := Starts smallOptions) (G := fun _ _ => True) (x := smallPools)
    (m := .call (.submit false) :: own 1 3 ++ inside 0 2 7 ++ .call (.releaseContext true) ::
      own 2 4 ++ inside 0 4 14 ++ .step 0 (.member 0 4 .deadline) :: inside 1 2 9 ++
      inside 1 1 3 ++ inside 1 2 11 ++ own 2 3)
    (φ := fun _ x => decide (x.threads[2]? = some (Role.client (Client.releaseContext true
      (.returned (some (.pools "pool 0: context deadline exceeded")))))))
    smallPools_starts (by decide)
  have hj := of_decide_eq_true hφ
  obtain ⟨hclosed, _⟩ | ⟨calls, results, hl, hcalls, hresults, hg, _, htext⟩ :=
    release_pools_gathers hx hj
  · cases hclosed
  · exact ⟨h, x, hx, hj, calls, results, hl, hcalls, hresults, hg, htext _ rfl⟩

/-! ## A barrier across the pools -/

/-- No reboot comes in, and in no pool a caller spawns a worker once a `release_context`
has read `running` as zero in its final test. -/
def noLateSpawns (x : State) : Move → Prop
  | .call .reboot => False
  | .call _ => True
  | .step j a => Facade.lift noLateSpawn x (.step j a : Move)

instance (x : State) : (m : Move) → Decidable (noLateSpawns x m)
  | .call .reboot => inferInstanceAs (Decidable False)
  | .call (.submit _) | .call (.tune _) | .call (.releaseContext _) =>
      inferInstanceAs (Decidable True)
  | .step j a => inferInstanceAs (Decidable (Facade.lift noLateSpawn x (.step j a : Move)))

namespace Client

def isReboot : Client → Bool
  | .reboot _ => true
  | _ => false

theorem Step.isReboot {s s' : MultiPoolCore} {pools : List Config} {t t' : Client}
    {call : Option (ℕ × Call)} (h : Step s pools t s' t' call) : t'.isReboot = t.isReboot := by
  cases h <;> rfl

/-- Only a reboot calls `reboot` on the pools. -/
theorem Step.call_allowed {s s' : MultiPoolCore} {pools : List Config} {t t' : Client} {k : ℕ}
    {d : Call} (h : Step s pools t s' t' (some (k, d))) (ht : t.isReboot = false) (c : Config) :
    noLateSpawn c (.call d) := by
  cases h with
  | dispatch h => cases h; trivial
  | releaseContext h => cases h; trivial
  | reboot => cases ht
  | tune h => cases h; trivial

/-- Only a reboot opens the multi-pool. -/
theorem Step.closed {s s' : MultiPoolCore} {pools : List Config} {t t' : Client}
    {call : Option (ℕ × Call)} (h : Step s pools t s' t' call) (ht : t.isReboot = false)
    (hs : s.state = .closed) : s'.state = .closed := by
  cases h with
  | dispatch h => cases h <;> exact hs
  | releaseContext h =>
      cases h with
      | exchange => rfl
      | _ => exact hs
  | reboot => cases ht
  | tune => exact hs

/-- Past its exchange, `release_context` has closed the multi-pool or found it closed. -/
def hasClosed : Client → Bool
  | .releaseContext _ .exchange => false
  | .releaseContext _ _ => true
  | _ => false

theorem Step.hasClosed {s s' : MultiPoolCore} {pools : List Config} {t t' : Client}
    {call : Option (ℕ × Call)} (h : Step s pools t s' t' call) (ht' : t'.hasClosed = true) :
    t.hasClosed = true ∨ s'.state = .closed := by
  cases h with
  | releaseContext h =>
      cases h with
      | refused hc => exact .inr hc
      | exchange => exact .inr rfl
      | _ => exact .inl rfl
  | _ => cases ht'

end Client

namespace Run
variable {o : Options} {x : State}

theorem client_not_reboot (h : Run o noLateSpawns x) {u : Client} (hu : .client u ∈ x.threads) :
    u.isReboot = false := by
  refine Run.invariant (J := fun x => ∀ u, .client u ∈ x.threads → u.isReboot = false)
    ?_ ?_ ?_ ?_ h u hu
  · intro y hy u hu
    rw [hy.threads] at hu
    cases List.mem_singleton.mp hu
  · intro y d _ hy hg u hu
    rcases List.mem_append.mp hu with hu | hu
    · exact hy u hu
    · cases List.mem_singleton.mp hu
      cases d with
      | reboot => exact hg.elim
      | _ => rfl
  · exact fun _ _ _ _ _ _ _ _ hy _ _ _ => hy
  · intro y j t s' t' call _ hy _ hj hs u hu
    rcases Config.mem_after hu with hu | hu | hu
    · exact hy u hu
    · cases hu
      exact hs.isReboot.trans (hy t (List.mem_of_getElem? hj))
    · cases hu

theorem member_noLateSpawn (h : Run o noLateSpawns x) {k : ℕ} {c : Config}
    (hk : x.shared.members[k]? = some c) : AntsPool.Run o noLateSpawn c := by
  refine Run.invariant (J := fun x => ∀ k c, x.shared.members[k]? = some c →
    AntsPool.Run o noLateSpawn c) ?_ ?_ ?_ ?_ h k c hk
  · exact fun y hy k c hk => .init (hy.members c (List.mem_of_getElem? hk))
  · exact fun _ _ _ hy _ => hy
  · intro y j k i a c c' _ hy hg hk hc l d hl
    rcases eq_or_ne k l with rfl | hne
    · rw [List.getElem?_set_self (List.getElem?_eq_some_iff.mp hk).1] at hl
      cases hl
      exact .move _ (hy k c hk) (hg c hk) hc
    · rw [List.getElem?_set_ne hne] at hl
      exact hy l d hl
  · intro y j t s' t' call hr hy _ hj hs k c' hk
    rcases Facade.enter_cases hk with ⟨hk, _⟩ | ⟨c, d, hc, rfl, rfl⟩
    · exact hy k c' hk
    · have ht := hr.client_not_reboot (List.mem_of_getElem? hj)
      exact .move (.call d) (hy k c hc) (hs.call_allowed ht c) rfl

theorem closed_of_hasClosed (h : Run o noLateSpawns x) {u : Client} (hu : .client u ∈ x.threads)
    (hc : u.hasClosed = true) : x.shared.head.state = .closed := by
  refine Run.invariant (J := fun x => ∀ u, .client u ∈ x.threads → u.hasClosed = true →
    x.shared.head.state = .closed) ?_ ?_ ?_ ?_ h u hu hc
  · intro y hy u hu
    rw [hy.threads] at hu
    cases List.mem_singleton.mp hu
  · intro y d _ hy _ u hu hc
    rcases List.mem_append.mp hu with hu | hu
    · exact hy u hu hc
    · cases List.mem_singleton.mp hu
      cases d <;> cases hc
  · exact fun _ _ _ _ _ _ _ _ hy _ _ _ => hy
  · intro y j t s' t' call hr hy _ hj hs u hu hc
    have hmem := List.mem_of_getElem? hj
    have hstep := hs.closed (hr.client_not_reboot hmem)
    rcases Config.mem_after hu with hu | hu | hu
    · exact hstep (hy u hu hc)
    · cases hu
      rcases hs.hasClosed hc with hc | hc
      · exact hstep (hy t hmem hc)
      · exact hc
    · cases hu

end Run

theorem pc_of_resultAt {pools : List Config} {b : Bool} {k i : ℕ} {r : Option Error}
    (h : Called pools (.releaseContext b) k i) (hr : resultAt pools k i = some r) :
    ∃ c t, pools[k]? = some c ∧ .release t ∈ c.threads ∧ t.mode = .context b ∧
      t.pc = .returned r := by
  obtain ⟨c, t, hk, hi, hd⟩ := h
  rw [resultAt, hk, Option.bind_some, result, hi] at hr
  cases t with
  | release t =>
      refine ⟨c, t, hk, List.mem_of_getElem? hi, of_decide_eq_true hd, ?_⟩
      simp only at hr
      split at hr
      · rename_i hpc
        cases hr
        exact hpc
      · cases hr
  | _ => cases hd

/-- Without late spawns, a `release_context` of the multi-pool that returned `Ok` is a
barrier across its pools: all of them are closed, no worker is running and no payload is
executing in any. -/
theorem release_pools_is_barrier {o : Options} {x : State} (h : Run o noLateSpawns x)
    (ht : .client (.releaseContext true (.returned none)) ∈ x.threads) :
    x.shared.head.state = .closed ∧ ∀ c ∈ x.shared.members, c.shared.state = .closed ∧
      c.shared.running = 0 ∧ ∀ u ∈ c.threads, u.executing = false := by
  refine ⟨h.closed_of_hasClosed ht rfl, fun c hc => ?_⟩
  obtain ⟨k, hk⟩ := List.mem_iff_getElem?.mp hc
  have hlt := (List.getElem?_eq_some_iff.mp hk).1
  obtain hclosed | ⟨calls, results, hcalls, hresults, hg, hr⟩ := h.calls ht
  · cases hclosed
  · have hi := List.getElem?_eq_getElem (hcalls.symm ▸ hlt)
    have hq := List.getElem?_eq_getElem (hresults.symm ▸ hlt)
    have hok := (aggregate_eq_none_iff results).mp hr.symm _ (List.mem_of_getElem? hq)
    obtain ⟨d, t, hd, ht, hm, hpc⟩ := pc_of_resultAt (hg.made k _ hi) (hg.returned k _ _ hi hq)
    cases hk.symm.trans hd
    rw [hok] at hpc
    have hrun := h.member_noLateSpawn hk
    have hzero := hrun.passedTest_running _ ht (by simp [Thread.passedTest, hm, hpc])
    obtain ⟨j, hj⟩ := List.mem_iff_getElem?.mp ht
    refine ⟨(hrun.closed_of_hasClosed (fun _ => id) j _ hj).2 ?_, hzero, fun u hu => ?_⟩
    · obtain ⟨_, _, _, pc⟩ := t
      cases hpc
      rfl
    · by_contra hex
      have hcounted := Thread.counted_of_executing (Bool.of_not_eq_false hex)
      exact absurd (hrun.running_pos hu hcounted) (hzero ▸ lt_irrefl _)

/-- A worker of the first of two pools runs a payload when they are released; it exits
while `release_context` waits for it. -/
theorem release_pools_is_barrier_small :
    ∃ x, Run smallOptions noLateSpawns x ∧ x.shared.members.length = 2 ∧
      x.shared.members.map (fun c => c.shared.past.received) = [[(2, 0)], []] ∧
      ∀ c ∈ x.shared.members, c.shared.running = 0 := by
  obtain ⟨x, hx, hφ⟩ := Program.Reach.exists_of_run
    (P := program smallOptions) (I := Starts smallOptions) (G := noLateSpawns) (x := smallPools)
    (m := .call (.submit false) :: own 1 3 ++ inside 0 2 7 ++ own 1 1 ++ inside 0 3 1 ++
      .call (.releaseContext true) :: own 2 4 ++ inside 0 4 14 ++ inside 0 1 3 ++ inside 0 3 11 ++
      inside 0 4 6 ++ inside 1 2 9 ++ inside 1 1 3 ++ inside 1 2 11 ++ own 2 3)
    (φ := fun x => decide (.client (.releaseContext true (.returned none)) ∈ x.threads ∧
      x.shared.members.length = 2 ∧
      x.shared.members.map (fun c => c.shared.past.received) = [[(2, 0)], []]))
    smallPools_starts (by decide)
  obtain ⟨ht, hlen, hreceived⟩ := of_decide_eq_true hφ
  exact ⟨x, hx, hlen, hreceived, fun c hc => ((release_pools_is_barrier hx ht).2 c hc).2.1⟩

end MultiPool

end AntsPool
