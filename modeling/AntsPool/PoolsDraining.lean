import AntsPool.Draining
import AntsPool.FacadeBudgets
import AntsPool.Gathering

/-!
# A closed multi-pool drains

What is left to a client of the multi-pool, with its calls on the pools. A client never
waits but for a call that it made, so it has returned once its pool is drained, unless
that call is one that blocks or goes on without end.
-/
namespace AntsPool.MultiPool
open Interleaving ListTotals

/-! ## What is left to a client of `n` pools -/

/-- The second attempt of a `dispatch` is a scan. -/
def Dispatch.left (n : ℕ) (t : Dispatch) : ℕ :=
  let again := if t.fallback then 0 else n + 20
  match t.pc with
  | .checkClosed => again + n + 21
  | .ticket => again + 20
  | .scan k _ _ => again + (n - k) + 20
  | .deliver _ => again + 19
  | .await _ _ => again + 1
  | .returned _ | .panicked => 0

def ReleaseContextPc.left (n : ℕ) : ReleaseContextPc → ℕ
  | .exchange => 19 * n + 3
  | .spawn handles => 18 * (n - handles.length) + max n handles.length + 2
  | .join handles outcomes => handles.length - outcomes.length + 1
  | .returned _ => 0

def RebootPc.left (n : ℕ) : RebootPc → ℕ
  | .exchange => 19 * n + 3
  | .storeIndex => 19 * n + 2
  | .call k => 19 * (n - k) + 1
  | .await k _ => 19 * (n - (k + 1)) + 2
  | .returned => 0

def TunePc.left (n : ℕ) : TunePc → ℕ
  | .call k => 19 * (n - k) + 1
  | .await k _ => 19 * (n - (k + 1)) + 2
  | .returned => 0

def Client.left (n : ℕ) : Client → ℕ
  | .dispatch t => t.left n
  | .releaseContext _ pc => pc.left n
  | .reboot pc => pc.left n
  | .tune _ pc => pc.left n

open Facade in
/-- Every step of a client takes something away, and what a call brings to its pool. -/
theorem Client.Step.left {s s' : MultiPoolCore} {pools : List Config} {t t' : Client}
    {call : Option (ℕ × Call)} (h : Client.Step s pools t s' t' call) :
    (t'.left pools.length : ℤ) + callCost (fun _ => 17) call + 1 ≤ t.left pools.length := by
  cases h with
  | dispatch h =>
      cases h with
      | opened =>
          rename_i n f l _
          unfold select
          split_ifs <;> simp only [Client.left, Dispatch.left, callCost] <;> omega
      | scanLess hk =>
          have hlt := (List.getElem?_eq_some_iff.mp hk).1
          simp only [Client.left, Dispatch.left, callCost]
          omega
      | scanNext hk =>
          have hlt := (List.getElem?_eq_some_iff.mp hk).1
          simp only [Client.left, Dispatch.left, callCost]
          omega
      | _ =>
          simp only [Client.left, Dispatch.left, callCost, if_true, Bool.false_eq_true, if_false]
          omega
  | releaseContext h =>
      cases h with
      | join hi =>
          have hlt := (List.getElem?_eq_some_iff.mp hi).1
          simp only [Client.left, ReleaseContextPc.left, callCost, List.length_append,
            List.length_singleton]
          omega
      | _ =>
          simp only [Client.left, ReleaseContextPc.left, callCost, List.length_append,
            List.length_singleton, List.length_nil]
          omega
  | reboot h =>
      cases h <;> simp only [Client.left, RebootPc.left, callCost] <;> omega
  | tune h =>
      cases h <;> simp only [Client.left, TunePc.left, callCost] <;> omega

theorem Request.left_le (d : Request) (n : ℕ) : d.start.left n ≤ 19 * n + 41 := by
  cases d <;>
    simp only [start, Client.left, Dispatch.left, ReleaseContextPc.left, RebootPc.left, TunePc.left,
      Bool.false_eq_true, if_false] <;> omega

/-- Shut pools behind the façade keep within what is left to them and to the clients. -/
theorem frugal {o : Options} {x₀ : State} (hshut : ∀ c ∈ x₀.shared.members, shut c) :
    facade.Frugal (AntsPool.program o) noReopen drainLedger Thread.busy (fun _ => 17)
      (fun u => u.left x₀.shared.members.length) x₀.shared.members where
  solvent := drainLedger_solvent
  cost_nonneg _ := Int.natCast_nonneg 17
  left_nonneg _ := Int.natCast_nonneg _
  called i d := Int.ofNat_le.mpr (d.toGo_le i)
  admitted _ _ := trivial
  member c i a t r hc ht hn := by
    obtain ⟨c₀, hc₀, hreach⟩ := hc.exists_start
    exact toGo_of_shut (hshut c₀ hc₀) c i a t r hreach ht hn
  client h pools u h' u' call hlen hn := by
    rw [← hlen]
    exact (Client.next_step hn).left

/-! ## What is left when nothing goes on -/

/-- A client of drained pools: it has returned, or waits for a caller that is blocked in
`Cond::wait`, for a `release_context` that polls, or for a reboot. -/
inductive Client.Settled (pools : List Config) : Client → Prop
  | dispatched {n f l r} : Settled pools (.dispatch ⟨n, f, l, .returned r⟩)
  | blocked {n f l k i c t} (hk : pools[k]? = some c) (hi : c.threads[i]? = some (.submit t))
      (hp : t.pc = .parked c.shared.cond.generation) (h : c.shared.cond.tokens = 0) :
      Settled pools (.dispatch ⟨n, f, l, .await k i⟩)
  | released {b r} : Settled pools (.releaseContext b (.returned r))
  | polling {b handles outcomes i c t} (hk : pools[outcomes.length]? = some c)
      (hj : handles[outcomes.length]? = some i) (hi : c.threads[i]? = some (.release t))
      (hp : t.pc.polling = true) : Settled pools (.releaseContext b (.join handles outcomes))
  | rebooted : Settled pools (.reboot .returned)
  | rebooting {k i c t} (hk : pools[k]? = some c) (hi : c.threads[i]? = some (.reboot t))
      (ht : t ≠ .returned) : Settled pools (.reboot (.await k i))
  | tuned {size} : Settled pools (.tune size .returned)

/-- A pool in which nothing goes on has returned what it was called for. -/
theorem rests_of_called {o : Options} {pools : List Config} {d : Call} {k i : ℕ}
    (h : Called pools d k i) (hr : resultAt pools k i = none)
    (hrun : ∀ c ∈ pools, AntsPool.Run o anyMove c) (hrest : ∀ c ∈ pools, AntsPool.atRest o c) :
    ∃ c t, pools[k]? = some c ∧ c.threads[i]? = some t ∧ d.runs t = true ∧
      result c i = none ∧ (t.busy = true → Thread.Rests o c.shared t) := by
  obtain ⟨c, t, hk, hi, hd⟩ := h
  have hc := List.mem_of_getElem? hk
  rw [resultAt, hk, Option.bind_some] at hr
  exact ⟨c, t, hk, hi, hd, hr, (hrun c hc).rests_of_atRest (hrest c hc) (List.mem_of_getElem? hi)⟩

theorem Client.settled {o : Options} {s : MultiPoolCore} {pools : List Config} {u : Client}
    (hn : u.next s pools = none) (hcalls : u.Calls pools)
    (hrun : ∀ c ∈ pools, AntsPool.Run o anyMove c) (hrest : ∀ c ∈ pools, AntsPool.atRest o c)
    (hdrained : ∀ c ∈ pools, Drained c) : u.Settled pools := by
  cases u with
  | dispatch t =>
      have hn := Option.map_eq_none_iff.mp hn
      obtain ⟨n, f, l, pc⟩ := t
      cases pc with
      | returned => exact .dispatched
      | panicked => exact hcalls.elim
      | scan =>
          simp only [Dispatch.next] at hn
          split at hn
          · cases hn
          · split_ifs at hn
      | await k i =>
          have hr := Option.map_eq_none_iff.mp hn
          obtain ⟨c, t, hk, hi, hd, hr, hrests⟩ := rests_of_called hcalls hr hrun hrest
          cases t with
          | submit t =>
              rw [result, hi] at hr
              have hc := List.mem_of_getElem? hk
              rcases (hdrained c hc).callers t (List.mem_of_getElem? hi) with
                ⟨w, hpc⟩ | ⟨e, hpc⟩ | ⟨hpc, htokens⟩
              · simp only [hpc, reduceCtorEq] at hr
              · simp only [hpc, reduceCtorEq] at hr
              · exact .blocked hk hi hpc htokens
          | _ => cases hd
      | checkClosed | ticket | deliver => cases hn
  | releaseContext b pc =>
      have hn := Option.map_eq_none_iff.mp hn
      cases pc with
      | returned => exact .released
      | join handles outcomes =>
          simp only [ReleaseContextPc.next] at hn
          split at hn
          · cases hn
          · rename_i i hj
            have hr := Option.map_eq_none_iff.mp hn
            obtain ⟨_, results, rfl, _, hg⟩ := hcalls
            obtain ⟨c, t, hk, hi, hd, hr, hrests⟩ :=
              rests_of_called (hg.made _ i hj) hr hrun hrest
            cases t with
            | release t =>
                cases hp : t.pc.polling with
                | true => exact .polling hk hj hi hp
                | false =>
                    rw [result, hi] at hr
                    cases hrests (by simp [Thread.busy, hp]) with
                    | released => cases hr
                    | purgeCtx | ticktockCtx => cases hp
            | _ => cases hd
      | _ =>
          simp only [ReleaseContextPc.next] at hn
          split_ifs at hn
  | reboot pc =>
      have hn := Option.map_eq_none_iff.mp hn
      cases pc with
      | returned => exact .rebooted
      | await k i =>
          have hr := Option.map_eq_none_iff.mp hn
          obtain ⟨c, t, hk, hi, hd, hr, _⟩ := rests_of_called hcalls hr hrun hrest
          cases t with
          | reboot t =>
              refine .rebooting hk hi ?_
              rintro rfl
              rw [result, hi] at hr
              cases hr
          | _ => cases hd
      | storeIndex => cases hn
      | _ =>
          simp only [RebootPc.next] at hn
          split_ifs at hn
  | tune size pc =>
      have hn := Option.map_eq_none_iff.mp hn
      cases pc with
      | returned => exact .tuned
      | await k i =>
          have hr := Option.map_eq_none_iff.mp hn
          obtain ⟨c, t, hk, hi, hd, hr, hrests⟩ := rests_of_called hcalls hr hrun hrest
          cases t with
          | tune t =>
              cases hrests rfl
              rw [result, hi] at hr
              cases hr
          | _ => cases hd
      | call =>
          simp only [TunePc.next] at hn
          split_ifs at hn

/-- Every pool is drained, and every client is settled. -/
def Settled (x : State) : Prop :=
  (∀ c ∈ x.shared.members, Drained c) ∧
    ∀ u, .client u ∈ x.threads → u.Settled x.shared.members

/-- Everyone but the clocks and the calls that poll has come to rest. -/
def atRest (o : Options) (x : State) : Prop :=
  facade.AtRest (AntsPool.program o) Thread.busy x

theorem Run.has_members {o : Options} {G : Guard} {x : State} (h : Run o G x) :
    .members ∈ x.threads := by
  refine Run.invariant (J := fun x => .members ∈ x.threads) ?_ ?_ ?_ ?_ h
  · intro y hy
    rw [hy.threads]
    exact List.mem_singleton_self _
  · exact fun y d _ hy _ => List.mem_append_left _ hy
  · exact fun _ _ _ _ _ _ _ _ hy _ _ _ => hy
  · intro y j t s' t' call _ hy _ hj _
    exact Config.mem_after_of_ne hj hy (fun h => by cases h) _

/-- A multi-pool whose pools are shut drains. Under every interleaving of its clients and
of the threads in its pools, with any further calls and up to the exchange of a reboot,
they take no more steps than are left to them and to the calls; when nothing goes on any
more every pool is drained and every client settled; and it can get there. -/
theorem closed_pools_drain {o : Options} {x₀ : State} (h₀ : Run o (fun _ _ => True) x₀)
    (hshut : ∀ c ∈ x₀.shared.members, shut c) :
    (∀ h x, (program o).Trace (fun z => z = x₀) (Facade.lift noReopen) h x →
      (h.countP (Facade.isBusy Thread.busy) : ℤ) ≤
        (Facade.budget drainLedger fun u => u.left x₀.shared.members.length).balance x₀ +
          (19 * x₀.shared.members.length + 41) * h.countP Event.isCall ∧
      (atRest o x → Settled x)) ∧
    ∃ x, (program o).Reach (fun z => z = x₀) (Facade.lift noReopen) x ∧ Settled x := by
  have hF := frugal (o := o) hshut
  have hsettled : ∀ x, (program o).Reach (fun z => z = x₀) (Facade.lift noReopen) x →
      atRest o x → Settled x := by
    intro x hx hrest
    have hrun : Run o (fun _ _ => True) x := h₀.trans (hx.weaken fun _ _ _ => trivial)
    have hmember : ∀ c ∈ x.shared.members, AntsPool.Run o anyMove c ∧ c.shared.state = .closed := by
      intro c hc
      obtain ⟨k, hk⟩ := List.mem_iff_getElem?.mp hc
      obtain ⟨c₀, hc₀, hreach⟩ := (hF.member_reach hx hk).exists_start
      exact ⟨hrun.member_run hk, (shut_of_reach (hshut c₀ hc₀) hreach).1⟩
    have hdrained : ∀ c ∈ x.shared.members, Drained c := fun c hc =>
      (hmember c hc).1.drained (hmember c hc).2 (hrest.1 c hc)
    exact ⟨hdrained, fun u hu => Client.settled (hrest.2 u hu) (hrun.calls hu)
      (fun c hc => (hmember c hc).1) hrest.1 hdrained⟩
  constructor
  · intro h x hx
    refine ⟨?_, hsettled x hx.reach⟩
    refine hF.busy_le (fun i d => ?_) hx
    have hle := d.left_le x₀.shared.members.length
    change ((d.start.left x₀.shared.members.length : ℕ) : ℤ) ≤ _
    omega
  · obtain ⟨x, hx, hrest⟩ := hF.exists_atRest (fun c i t a => busy_allowed c i t a) (.init rfl)
      h₀.has_members
    exact ⟨x, hx, hsettled x hx hrest⟩

/-- Two pools that a `release_context` has closed, with a worker of the first running. -/
def releasedPools : State :=
  ((program smallOptions).run (fun _ _ => True) smallPools
    (.call (.submit false) :: own 1 3 ++ inside 0 2 7 ++ .call (.releaseContext true) :: own 2 4 ++
      inside 0 4 14 ++ inside 1 2 9)).get (by decide)

theorem closed_pools_drain_small :
    releasedPools.shared.members.map (fun c => c.shared.running) = [1, 0] ∧
      ∃ x, (program smallOptions).Reach (fun z => z = releasedPools) (Facade.lift noReopen) x ∧
        Settled x := by
  have hrun : Run smallOptions (fun _ _ => True) releasedPools :=
    Program.Reach.run (.init smallPools_starts) (Option.some_get _).symm
  have hshut : ∀ c ∈ releasedPools.shared.members, shut c := by decide
  exact ⟨by decide, (closed_pools_drain hrun hshut).2⟩

end AntsPool.MultiPool
