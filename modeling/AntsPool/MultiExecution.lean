import AntsPool.Execution
import AntsPool.Farms
import AntsPool.Gathering

/-!
# A multi-pool is an executor

The payload of a dispatch is one job, wherever it is delivered. A pool that refuses it has
nothing to do with it any more, so the job is where it was delivered last, and the pools
together are one executor with the capacities of all.
-/
namespace AntsPool.MultiPool
open Interleaving

/-- The deliveries of a dispatch, the latest first. -/
def attempts : Role Client → List (ℕ × ℕ)
  | .client (.dispatch t) => t.tried
  | _ => []

/-- Where the payload of dispatch number `j` is: its latest delivery. -/
def place (x : State) (j : ℕ) : Option (ℕ × ℕ) := x.threads[j]?.bind fun r => (attempts r).head?

/-- A multi-pool as an executor. -/
noncomputable def view (x : State) : Executor ℕ :=
  Executor.pooled (x.shared.members.map AntsPool.view) (place x)

/-! ## The deliveries of a dispatch -/

def Refused (pools : List Config) (p : ℕ × ℕ) : Prop :=
  ∃ e, resultAt pools p.1 p.2 = some (some e)

/-- Every delivery but the one that is under way or was accepted has been refused. -/
def Dispatch.Attempts (pools : List Config) (t : Dispatch) : Prop :=
  match t.pc with
  | .await k i => ∃ rest, t.tried = (k, i) :: rest ∧ (∀ p ∈ rest, Refused pools p) ∧
      Called pools (.submit t.stop) k i
  | .returned none => ∃ k i rest, t.tried = (k, i) :: rest ∧ (∀ p ∈ rest, Refused pools p) ∧
      Called pools (.submit t.stop) k i ∧ resultAt pools k i = some none
  | _ => ∀ p ∈ t.tried, Refused pools p

theorem Refused.later {pools pools' : List Config} (hp : Later pools pools') {p : ℕ × ℕ}
    (h : Refused pools p) : Refused pools' p := by
  obtain ⟨e, he⟩ := h
  exact ⟨e, hp.result he⟩

theorem Dispatch.Attempts.later {pools pools' : List Config} (hp : Later pools pools')
    {t : Dispatch} (h : t.Attempts pools) : t.Attempts pools' := by
  obtain ⟨n, f, l, pc⟩ := t
  cases pc with
  | await k i =>
      obtain ⟨rest, hl, hrest, hc⟩ := h
      exact ⟨rest, hl, fun p hq => (hrest p hq).later hp, hp.called hc⟩
  | returned r =>
      cases r with
      | none =>
          obtain ⟨k, i, rest, hl, hrest, hc, hr⟩ := h
          exact ⟨k, i, rest, hl, fun p hq => (hrest p hq).later hp, hp.called hc, hp.result hr⟩
      | some e => exact fun p hq => Refused.later hp (h p hq)
  | _ => exact fun p hq => Refused.later hp (h p hq)

theorem Dispatch.Step.attempts {o : Options} {s s' : MultiPoolCore} {pools : List Config}
    {t t' : Dispatch} {call : Option (ℕ × Call)} (h : Dispatch.Step s pools t s' t' call)
    (hcalls : (Client.dispatch t).Calls pools) (ht : t.Attempts pools) :
    t'.Attempts ((AntsPool.program o).enter pools call) := by
  cases h with
  | @deliver n f l k =>
      have hlater := Later.enter o pools (some (k, .submit n))
      exact ⟨_, rfl, fun p hq => (ht p hq).later hlater, called_enter o hcalls _⟩
  | fallback hr =>
      obtain ⟨rest, hl, hrest, _⟩ := ht
      cases hl
      exact fun p hq => (List.mem_cons.mp hq).elim (fun he => he ▸ ⟨_, hr⟩) (hrest p)
  | @returned _ _ _ k i r hr =>
      obtain ⟨rest, hl, hrest, hc⟩ := ht
      cases hl
      cases r with
      | none => exact ⟨k, i, rest, rfl, hrest, hc, hr⟩
      | some e => exact fun p hq => (List.mem_cons.mp hq).elim (fun he => he ▸ ⟨e, hr⟩) (hrest p)
  | opened =>
      unfold select
      split_ifs <;> exact ht
  | _ => exact ht

theorem lt_nextCall_of_result {pools : List Config} {k i : ℕ} {r : Option Error}
    (h : resultAt pools k i = some r) : i < nextCall pools k := by
  obtain ⟨c, hk, hi⟩ := Option.bind_eq_some_iff.mp h
  rw [nextCall, hk]
  exact lt_of_result hi

/-- The deliveries have been made. -/
theorem Dispatch.Attempts.lt {pools : List Config} {t : Dispatch} (h : t.Attempts pools)
    {p : ℕ × ℕ} (hp : p ∈ t.tried) : p.2 < nextCall pools p.1 := by
  have hrefused : Refused pools p → p.2 < nextCall pools p.1 := fun ⟨_, he⟩ =>
    lt_nextCall_of_result he
  have hcalled : Called pools (.submit t.stop) p.1 p.2 → p.2 < nextCall pools p.1 := by
    rintro ⟨c, u, hk, hi, _⟩
    rw [nextCall, hk]
    exact (List.getElem?_eq_some_iff.mp hi).1
  obtain ⟨n, f, l, pc⟩ := t
  cases pc with
  | await k i =>
      obtain ⟨rest, rfl, hrest, hc⟩ := h
      rcases List.mem_cons.mp hp with rfl | hp
      · exact hcalled hc
      · exact hrefused (hrest p hp)
  | returned r =>
      cases r with
      | none =>
          obtain ⟨k, i, rest, rfl, hrest, hc, _⟩ := h
          rcases List.mem_cons.mp hp with rfl | hp
          · exact hcalled hc
          · exact hrefused (hrest p hp)
      | some e => exact hrefused (h p hp)
  | _ => exact hrefused (h p hp)

/-- The deliveries before the latest one have been refused. -/
theorem Dispatch.Attempts.tail {pools : List Config} {t : Dispatch} (h : t.Attempts pools)
    {p : ℕ × ℕ} (hp : p ∈ t.tried.tail) : Refused pools p := by
  obtain ⟨n, f, l, pc⟩ := t
  cases pc with
  | await k i =>
      obtain ⟨rest, rfl, hrest, _⟩ := h
      exact hrest p hp
  | returned r =>
      cases r with
      | none =>
          obtain ⟨k, i, rest, rfl, hrest, _⟩ := h
          exact hrest p hp
      | some e => exact h p (List.mem_of_mem_tail hp)
  | _ => exact h p (List.mem_of_mem_tail hp)

/-- A client makes one delivery, or none. -/
theorem Client.Step.attempts {s s' : MultiPoolCore} {pools : List Config} {t t' : Client}
    {call : Option (ℕ × Call)} (h : Client.Step s pools t s' t' call) :
    attempts (.client t') = attempts (.client t) ∨
      ∃ k, attempts (.client t') = (k, nextCall pools k) :: attempts (.client t) := by
  cases h with
  | dispatch h =>
      cases h with
      | deliver => exact .inr ⟨_, rfl⟩
      | _ => exact .inl rfl
  | _ => exact .inl rfl

namespace Run
variable {o : Options} {G : Guard} {x : State}

theorem attempts (h : Run o G x) {t : Dispatch} (ht : .client (.dispatch t) ∈ x.threads) :
    t.Attempts x.shared.members := by
  refine Run.invariant (J := fun x => ∀ t, .client (.dispatch t) ∈ x.threads →
    t.Attempts x.shared.members) ?_ ?_ ?_ ?_ h t ht
  · intro y hy t ht
    rw [hy.threads] at ht
    cases List.mem_singleton.mp ht
  · intro y d _ hy _ t ht
    rcases List.mem_append.mp ht with ht | ht
    · exact hy t ht
    · cases d with
      | submit =>
          cases List.mem_singleton.mp ht
          exact fun p hp => absurd hp List.not_mem_nil
      | _ => cases List.mem_singleton.mp ht
  · intro y j k i a c c' _ hy _ hk hc t ht
    exact (hy t ht).later (.set hk (.fire hc))
  · intro y j u s' u' call hr hy _ hj hs t ht
    rcases Config.mem_after ht with ht | hu | ht
    · exact (hy t ht).later (.enter o _ call)
    · cases hu
      cases hs with
      | dispatch hs =>
          have hmem := List.mem_of_getElem? hj
          exact hs.attempts (hr.calls hmem) (hy _ hmem)
    · cases ht

theorem attempt_lt (h : Run o G x) {r : Role Client} (hr : r ∈ x.threads) {p : ℕ × ℕ}
    (hp : p ∈ MultiPool.attempts r) : p.2 < nextCall x.shared.members p.1 := by
  cases r with
  | members => cases hp
  | client t =>
      cases t with
      | dispatch t => exact (h.attempts hr).lt hp
      | _ => cases hp

/-- No two dispatches share a delivery. -/
theorem attempt_unique (h : Run o G x) {i j : ℕ} {q r : Role Client} {p : ℕ × ℕ}
    (hi : x.threads[i]? = some q) (hj : x.threads[j]? = some r)
    (hq : p ∈ MultiPool.attempts q) (hr : p ∈ MultiPool.attempts r) : i = j := by
  refine Run.invariant (J := fun x => ∀ (i j : ℕ) q r p, x.threads[i]? = some q →
    x.threads[j]? = some r → p ∈ MultiPool.attempts q → p ∈ MultiPool.attempts r → i = j)
    ?_ ?_ ?_ ?_ h i j q r p hi hj hq hr
  · intro y hy i j q r p hi _ hq _
    have hmem := List.mem_of_getElem? hi
    rw [hy.threads] at hmem
    cases List.mem_singleton.mp hmem
    cases hq
  · intro y d _ hy _ i j q r p hi hj hq hr
    have hnone : p ∉ MultiPool.attempts (.client d.start) := by
      cases d <;> exact List.not_mem_nil
    rcases getElem?_concat_cases hi with hi | ⟨_, rfl⟩
    · rcases getElem?_concat_cases hj with hj | ⟨_, rfl⟩
      · exact hy i j q r p hi hj hq hr
      · exact (hnone hr).elim
    · exact (hnone hq).elim
  · exact fun _ _ _ _ _ _ _ _ hy _ _ _ => hy
  · intro y l u s' u' call hrun hy _ hl hs i j q r p hi hj hq hr
    have hother : ∀ (m : ℕ) v, m ≠ l → y.threads[m]? = some v →
        p ∈ MultiPool.attempts (.client u') → p ∉ MultiPool.attempts v := by
      intro m v hml hv hp hpv
      rcases hs.attempts with heq | ⟨k, heq⟩
      · exact hml (hy m l v _ p hv hl hpv (heq ▸ hp))
      · rcases List.mem_cons.mp (heq ▸ hp) with rfl | hp
        · exact lt_irrefl _ (hrun.attempt_lt (List.mem_of_getElem? hv) hpv)
        · exact hml (hy m l v _ p hv hl hpv hp)
    rcases Config.getElem?_after hl hi with ⟨rfl, rfl⟩ | ⟨hil, hold⟩ | ⟨_, hnew⟩
    · rcases Config.getElem?_after hl hj with ⟨rfl, rfl⟩ | ⟨hjl, hold⟩ | ⟨_, hnew⟩
      · rfl
      · exact (hother j r hjl hold hq hr).elim
      · cases hnew
    · rcases Config.getElem?_after hl hj with ⟨rfl, rfl⟩ | ⟨_, hold'⟩ | ⟨_, hnew⟩
      · exact (hother i q hil hold hr hq).elim
      · exact hy i j q r p hold hold' hq hr
      · cases hnew
    · cases hnew

theorem apart (h : Run o G x) : Executor.Apart (place x) := by
  intro i j p hi hj
  obtain ⟨q, hq, hp⟩ := Option.bind_eq_some_iff.mp hi
  obtain ⟨r, hr, hp'⟩ := Option.bind_eq_some_iff.mp hj
  exact h.attempt_unique hq hr (List.mem_of_mem_head? hp) (List.mem_of_mem_head? hp')

theorem members_within (h : Run o G x) :
    ∀ e ∈ x.shared.members.map AntsPool.view, e.Within := by
  intro e he
  obtain ⟨c, hc, rfl⟩ := List.mem_map.mp he
  obtain ⟨k, hk⟩ := List.mem_iff_getElem?.mp hc
  exact (h.member_run hk).within

end Run

/-! ## The simulation -/

/-- A call that has not sent its payload is no job. -/
theorem phase_of_not_accepted {o : Options} {G : AntsPool.Guard} {c : Config}
    (h : AntsPool.Run o G c) {n : ℕ} (ha : accepted c n = false) : phase c n = .absent := by
  have ha : ¬ accepted c n = true := ha ▸ Bool.false_ne_true
  have hb : ¬ begun c n = true := fun hb => ha (h.accepted_of_begun hb)
  have hr : ¬ runs c n = true := fun hr => hb (h.begun_of_runs hr)
  rw [phase, if_neg hr, if_neg hb, if_neg ha]

theorem phase_ne_absent {c : Config} {n : ℕ} (ha : accepted c n = true) : phase c n ≠ .absent := by
  unfold phase
  split_ifs <;> decide

/-- A call of `submit` that returned `Ok` has sent its payload. -/
theorem accepted_of_ok {c : Config} {i : ℕ} {u : Thread} {n : Bool} (hi : c.threads[i]? = some u)
    (hu : (Call.submit n).runs u = true) (h : result c i = some none) : accepted c i = true := by
  rw [accepted, hi, Option.any_some]
  rw [result, hi] at h
  cases u with
  | submit t =>
      obtain ⟨p, b, pc⟩ := t
      cases pc <;> first | rfl | cases h
  | _ => cases hu

theorem accepted_of_result {c : Config} {i : ℕ} {e : Error} (h : result c i = some (some e)) :
    accepted c i = false := by
  rw [accepted]
  rw [result] at h
  cases hi : c.threads[i]? with
  | none => rfl
  | some t =>
      rw [hi] at h
      cases t with
      | submit t =>
          obtain ⟨p, b, pc⟩ := t
          cases pc <;> first | rfl | cases h
      | _ => rfl

/-- The phase of a job in its pool. -/
theorem phaseAt_member {x : State} {k : ℕ} {c : Config} (hk : x.shared.members[k]? = some c)
    (i : ℕ) :
    Executor.phaseAt (x.shared.members.map AntsPool.view) (some (k, i)) = phase c i := by
  rw [Executor.phaseAt, List.getElem?_map, hk]
  rfl

namespace Run
variable {o : Options} {G : Guard} {x : State}

/-- A pool has nothing to do with a payload that it refused. -/
theorem phase_refused (h : Run o G x) {p : ℕ × ℕ} (hp : Refused x.shared.members p) {c : Config}
    (hk : x.shared.members[p.1]? = some c) : phase c p.2 = .absent := by
  obtain ⟨e, he⟩ := hp
  rw [resultAt, hk, Option.bind_some] at he
  exact phase_of_not_accepted (h.member_run hk) (accepted_of_result he)

theorem phaseAt_refused (h : Run o G x) {p : ℕ × ℕ} (hp : Refused x.shared.members p) :
    Executor.phaseAt (x.shared.members.map AntsPool.view) (some p) = .absent := by
  obtain ⟨e, he⟩ := hp
  obtain ⟨c, hk, _⟩ := Option.bind_eq_some_iff.mp he
  exact (phaseAt_member hk p.2).trans (h.phase_refused ⟨e, he⟩ hk)

/-- A call that is about to be made is no job yet. -/
theorem phaseAt_next (h : Run o G x) (k : ℕ) :
    Executor.phaseAt (x.shared.members.map AntsPool.view)
      (some (k, nextCall x.shared.members k)) = .absent := by
  cases hk : x.shared.members[k]? with
  | none =>
      rw [Executor.phaseAt, List.getElem?_map, hk]
      rfl
  | some c =>
      rw [phaseAt_member hk]
      refine phase_of_not_accepted (h.member_run hk) ?_
      rw [accepted, nextCall, hk, List.getElem?_eq_none le_rfl]
      rfl

end Run

theorem place_self {x : State} {j : ℕ} {r : Role Client} (hj : x.threads[j]? = some r) :
    place x j = (attempts r).head? := by
  rw [place, hj, Option.bind_some]

theorem place_after_self {x : State} {j : ℕ} {r r' : Role Client} (hj : x.threads[j]? = some r)
    (g : Group MultiPoolCore PoolCore Thread) :
    place (x.after j (g, r', [])) j = (attempts r').head? :=
  place_self (Config.getElem?_after_self hj)

theorem place_after_ne {x : State} {i j : ℕ} (hij : i ≠ j) (g : Group MultiPoolCore PoolCore Thread)
    (r' : Role Client) : place (x.after j (g, r', [])) i = place x i := by
  rw [place, place]
  simp only [Config.after, List.append_nil, List.getElem?_set_ne hij.symm]

/-- A call on a pool changes no job. -/
theorem map_view_enter (o : Options) (pools : List Config) (call : Option (ℕ × Call)) :
    ((AntsPool.program o).enter pools call).map AntsPool.view = pools.map AntsPool.view := by
  refine List.ext_getElem? fun k => ?_
  rw [List.getElem?_map, List.getElem?_map]
  cases hk : ((AntsPool.program o).enter pools call)[k]? with
  | none =>
      have hle := List.getElem?_eq_none_iff.mp hk
      rw [Facade.length_enter] at hle
      rw [List.getElem?_eq_none hle]
  | some c' =>
      rcases Facade.enter_cases hk with ⟨hold, _⟩ | ⟨c, d, hc, _, rfl⟩
      · rw [hold]
      · rw [hc, Option.map_some, Option.map_some, Run.view_call]

/-- A step inside a pool is one of the multi-pool, if its job is a dispatch's. -/
theorem view_member {o : Options} {x : State} {j k i : ℕ} {a : Env} {c c' : Config}
    (hx : Run o (fun _ _ => True) x) (hj : x.threads[j]? = some .members)
    (hk : x.shared.members[k]? = some c) (hc : (AntsPool.program o).fire c (.step i a) = some c')
    (hy : Run o (fun _ _ => True)
      (x.after j (⟨x.shared.head, x.shared.members.set k c'⟩, .members, []))) :
    Relation.ReflGen Executor.Step (view x)
      (view (x.after j (⟨x.shared.head, x.shared.members.set k c'⟩, .members, []))) := by
  have hplace : place (x.after j (⟨x.shared.head, x.shared.members.set k c'⟩, .members, [])) =
      place x := by
    funext l
    by_cases hl : l = j
    · rw [hl, place_after_self hj, place_self hj]
    · exact place_after_ne hl _ _
  have hview : view (x.after j (⟨x.shared.head, x.shared.members.set k c'⟩, .members, [])) =
      Executor.pooled ((x.shared.members.map AntsPool.view).set k (AntsPool.view c'))
        (place x) := by
    rw [view, hplace, ← List.map_set]
    rfl
  have hmem : (x.shared.members.map AntsPool.view)[k]? = some (AntsPool.view c) := by
    rw [List.getElem?_map, hk, Option.map_some]
  have hwithin := hy.members_within
  change ∀ e ∈ (x.shared.members.set k c').map AntsPool.view, e.Within at hwithin
  rw [List.map_set] at hwithin
  obtain ⟨t, ⟨s', t', new⟩, ht, hn, rfl⟩ := Program.fire_step _ hc
  have hrun : AntsPool.Run o anyMove c := hx.member_run hk
  have hrun' : AntsPool.Run o anyMove (c.after i (s', t', new)) := hrun.step trivial ht hn
  rw [hview]
  rcases (Relation.reflGen_iff _ _ _).mp (hrun.view_step ht (AntsPool.program_step hn) hrun') with
    heq | hstep
  · obtain ⟨hlt, hget⟩ := List.getElem?_eq_some_iff.mp hmem
    rw [heq, ← hget, List.set_getElem_self]
    exact .refl
  · exact hstep.pooled hx.apart hmem hwithin

/-- A client leaves every job in its phase: a payload that is delivered again has been
refused, and is not sent yet. -/
theorem view_client {o : Options} {x : State} {j : ℕ} {u u' : Client} {s' : MultiPoolCore}
    {call : Option (ℕ × Call)} (hx : Run o (fun _ _ => True) x)
    (hj : x.threads[j]? = some (.client u))
    (hs : Client.Step x.shared.head x.shared.members u s' u' call) :
    view (x.after j (⟨s', (AntsPool.program o).enter x.shared.members call⟩, .client u', [])) =
      view x := by
  have hmap := map_view_enter o x.shared.members call
  refine Executor.pooled_congr (congrArg _ hmap) fun l => ?_
  change Executor.phaseAt (((AntsPool.program o).enter x.shared.members call).map AntsPool.view) _ = _
  rw [hmap]
  by_cases hl : l = j
  · subst hl
    rw [place_after_self hj, place_self hj]
    cases hs with
    | dispatch hs =>
        cases hs with
        | @deliver n f l k =>
            -- the latest delivery so far was refused
            have hold : Executor.phaseAt (x.shared.members.map AntsPool.view) l.head? = .absent := by
              have hrefused := hx.attempts (List.mem_of_getElem? hj)
              cases l with
              | nil => rfl
              | cons p l => exact hx.phaseAt_refused (hrefused p List.mem_cons_self)
            exact (hx.phaseAt_next k).trans hold.symm
        | _ => rfl
    | _ => rfl
  · rw [place_after_ne hl]

theorem view_call (x : State) (d : Request) (o : Options) :
    view ((program o).entered x d) = view x := by
  refine Executor.pooled_congr rfl fun j => congrArg _ ?_
  rw [place, place]
  cases hj : x.threads[j]? with
  | some r =>
      rw [Program.entered, List.getElem?_append_left (List.getElem?_eq_some_iff.mp hj).1, hj]
  | none =>
      cases hnew : ((program o).entered x d).threads[j]? with
      | none => rfl
      | some r =>
          rcases getElem?_concat_cases hnew with hold | ⟨_, rfl⟩
          · cases hj.symm.trans hold
          · cases d <;> rfl

/-- Every move of the multi-pool is a step of the executor or leaves it alone. -/
theorem view_move {o : Options} {x y : State} {m : Move} (hx : Run o (fun _ _ => True) x)
    (hf : (program o).fire x m = some y) :
    Relation.ReflGen Executor.Step (view x) (view y) := by
  have hy : Run o (fun _ _ => True) y := .move m hx trivial hf
  cases m with
  | call d =>
      cases hf
      rw [view_call]
  | step j a =>
      obtain ⟨r, ⟨g', r', new⟩, hj, hnext, rfl⟩ := Program.fire_step _ hf
      obtain ⟨hs, hnew⟩ := Facade.program_step hnext
      cases hnew
      cases hs with
      | member hk hc => exact view_member hx hj hk hc hy
      | client hn =>
          have heq := view_client hx hj (Client.next_step hn)
          exact (Relation.reflGen_iff _ _ _).mpr (.inl heq)

/-- What a dispatch returns tells whether its job has been accepted. -/
theorem phase_of_returned {o : Options} {x : State} (hx : Run o (fun _ _ => True) x) {j : ℕ}
    {t : Dispatch} (hj : x.threads[j]? = some (.client (.dispatch t))) {r : Option Error}
    (hr : t.pc = .returned r) : r = none ↔ (view x).phase j ≠ .absent := by
  have hattempts := hx.attempts (List.mem_of_getElem? hj)
  have hphase : (view x).phase j =
      Executor.phaseAt (x.shared.members.map AntsPool.view) t.tried.head? :=
    congrArg (Executor.phaseAt _) (place_self hj)
  obtain ⟨n, f, l, pc⟩ := t
  cases hr
  cases r with
  | none =>
      obtain ⟨k, i, rest, rfl, _, ⟨c, u, hk, hi, hsubmit⟩, hok⟩ := hattempts
      refine iff_of_true rfl ?_
      rw [resultAt, hk, Option.bind_some] at hok
      rw [hphase, List.head?_cons, phaseAt_member hk]
      exact phase_ne_absent (accepted_of_ok hi hsubmit hok)
  | some e =>
      refine iff_of_false (Option.some_ne_none e) (not_not.mpr (hphase.trans ?_))
      cases l with
      | nil => rfl
      | cons p l => exact hx.phaseAt_refused (hattempts p List.mem_cons_self)

/-- A multi-pool is an executor of the payloads that are dispatched. A new one has none; every
move, of the clients and of the threads inside the pools, in every interleaving, accepts,
begins or finishes one payload, raises the limit, or changes nothing; so between any two
configurations of a run payloads only go forward, and they run within the sum of the
largest capacities there have been. A dispatch returns `Ok` just when its payload has been
accepted, and no pool but the one of its latest delivery has to do with it. -/
theorem multi_pool_refines_executor {o : Options} :
    (∀ x, Starts o x → ∀ n, (view x).phase n = .absent) ∧
    (∀ x m y, Run o (fun _ _ => True) x → (program o).fire x m = some y →
      Relation.ReflGen Executor.Step (view x) (view y)) ∧
    (∀ x₀ x, Run o (fun _ _ => True) x₀ →
      (program o).Reach (fun z => z = x₀) (fun _ _ => True) x →
        Relation.ReflTransGen Executor.Step (view x₀) (view x) ∧
        (∀ n, ((view x₀).phase n).rank ≤ ((view x).phase n).rank) ∧
        (view x).runningJobs.encard ≤ (view x).limit) ∧
    ∀ x, Run o (fun _ _ => True) x → ∀ (j : ℕ) t,
      x.threads[j]? = some (.client (.dispatch t)) →
        (∀ r, t.pc = .returned r → (r = none ↔ (view x).phase j ≠ .absent)) ∧
        ∀ p ∈ t.tried.tail, ∀ c, x.shared.members[p.1]? = some c → phase c p.2 = .absent := by
  refine ⟨fun x hx n => ?_, fun x m y hx hf => view_move hx hf, fun x₀ x h₀ hx => ?_,
    fun x hx j t hj => ⟨fun r hr => phase_of_returned hx hj hr, fun p hp c hk => ?_⟩⟩
  · have hnone : place x n = none := by
      rw [place, hx.fresh.threads]
      cases n <;> rfl
    exact congrArg (Executor.phaseAt _) hnone
  · have hsteps := h₀.view (fun y m z hy hf => view_move hy hf) hx
    exact ⟨hsteps, Executor.forward hsteps (Executor.pooled_within h₀.apart h₀.members_within)⟩
  · exact hx.phase_refused ((hx.attempts (List.mem_of_getElem? hj)).tail hp) hk

end AntsPool.MultiPool
