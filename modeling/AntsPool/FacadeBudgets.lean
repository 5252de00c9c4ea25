import AntsPool.Budgets
import AntsPool.Facade

/-!
# Façades that come to an end

The members of a façade keep within a budget, a call into one of them brings in no more
than its cost, and what is left to a client pays for its own steps and for its calls.
Then the whole keeps within the budgets of the members and what is left to the clients
together, however the threads in the members and the clients are interleaved, and a run
that lets everyone go on comes to rest.
-/
namespace AntsPool.Interleaving
open ListTotals

namespace Facade
variable {S T C A H U D : Type}

/-- Whether a move is the step of a client, or of a busy thread in a member. -/
def isBusy (busy : T → Bool) (e : Event (Group H S T) (Role U) D (Turn A)) : Bool :=
  match e.move with
  | .call _ => false
  | .step _ .own => true
  | .step _ (.member k i _) => (e.before.shared.members[k]?.bind fun c => c.threads[i]?).any busy

/-- No busy thread in a member can take a step, and no client. -/
def AtRest (F : Facade S T C H U D) (P : Program S T C A) (busy : T → Bool)
    (x : Config (Group H S T) (Role U)) : Prop :=
  (∀ c ∈ x.shared.members, P.AtRest busy c) ∧
    ∀ u, .client u ∈ x.threads → F.next x.shared.head x.shared.members u = none

def callCost (cost : C → ℤ) : Option (ℕ × C) → ℤ
  | none => 0
  | some (_, d) => cost d

/-- The budgets of the members, and what is left to the clients. -/
def budget (L : Ledger S T) (left : U → ℤ) : Ledger (Group H S T) (Role U) where
  held g := total L.balance g.members
  carried
    | .members => 0
    | .client u => left u

/-- A façade over `members` that spends what it has. -/
structure Frugal (F : Facade S T C H U D) (P : Program S T C A)
    (K : Config S T → Move C A → Prop) (L : Ledger S T) (busy : T → Bool) (cost : C → ℤ)
    (left : U → ℤ) (members : List (Config S T)) : Prop where
  solvent : L.Solvent
  cost_nonneg : ∀ d, 0 ≤ cost d
  left_nonneg : ∀ u, 0 ≤ left u
  called : ∀ i d, L.carried (P.start i d) ≤ cost d
  admitted : ∀ c d, K c (.call d)
  member : ∀ c i a t r, P.Reach (fun z => z ∈ members) K c → c.threads[i]? = some t →
    P.next c.shared i t a = some r →
    L.held r.1 + L.carried r.2.1 + total L.carried r.2.2 + (if busy t then 1 else 0) ≤
      L.held c.shared + L.carried t
  client : ∀ h pools u h' u' call, pools.length = members.length →
    F.next h pools u = some (h', u', call) → left u' + callCost cost call + 1 ≤ left u

variable {F : Facade S T C H U D} {P : Program S T C A} {K : Config S T → Move C A → Prop}
  {L : Ledger S T} {busy : T → Bool} {cost : C → ℤ} {left : U → ℤ}
  {x₀ x : Config (Group H S T) (Role U)}

theorem Step.program_next {g g' : Group H S T} {r r' : Role U} {a : Turn A}
    (h : F.Step P g r a g' r') (i : ℕ) : (F.program P).next g i r a = some (g', r', []) := by
  cases h with
  | member hk hc => simp only [program, hk, hc, Option.bind_some, Option.map_some]
  | client hn => simp only [program, hn, Option.map_some]

theorem modify_eq_set {α : Type} {l : List α} {k : ℕ} {a : α} (h : l[k]? = some a) (f : α → α) :
    l.modify k f = l.set k (f a) := by
  refine List.ext_getElem? fun j => ?_
  rcases eq_or_ne k j with rfl | hne
  · rw [List.getElem?_modify_eq, List.getElem?_set_self (List.getElem?_eq_some_iff.mp h).1, h]
    rfl
  · rw [List.getElem?_modify_ne _ _ hne, List.getElem?_set_ne hne]

namespace Frugal
variable (hF : Frugal F P K L busy cost left x₀.shared.members)
include hF

theorem total_enter (members : List (Config S T)) (call : Option (ℕ × C)) :
    total L.balance (P.enter members call) ≤ total L.balance members + callCost cost call := by
  cases call with
  | none => exact (add_zero _).ge
  | some kd =>
      obtain ⟨k, d⟩ := kd
      cases hk : members[k]? with
      | none =>
          rw [Program.enter, List.modify_eq_self (List.getElem?_eq_none_iff.mp hk)]
          exact le_add_of_nonneg_right (hF.cost_nonneg d)
      | some c =>
          have hset := total_set L.balance hk (P.entered c d)
          have hcost := hF.called c.threads.length d
          rw [L.balance_entered] at hset
          rw [Program.enter, modify_eq_set hk, callCost]
          omega

/-- The members of a reached group are reached from the first ones. -/
theorem member_reach (hx : (F.program P).Reach (fun z => z = x₀) (lift K) x) {k : ℕ}
    {c : Config S T} (hk : x.shared.members[k]? = some c) :
    P.Reach (fun z => z ∈ x₀.shared.members) K c := by
  refine Facade.member_reach (fun y hy c hc => ?_) hF.admitted (fun _ _ => id) hx hk
  subst hy
  exact hc

theorem fire_le {c c' : Config S T} {i : ℕ} {a : A}
    (hc : P.Reach (fun z => z ∈ x₀.shared.members) K c)
    (hf : P.fire c (.step i a) = some c') :
    L.balance c' + (if (c.threads[i]?).any busy then 1 else 0) ≤ L.balance c := by
  obtain ⟨t, r, ht, hr, rfl⟩ := P.fire_step hf
  have hstep := hF.member c i a t r hc ht hr
  have hafter := L.balance_after ht r
  rw [ht, Option.any_some]
  omega

/-- No step adds to the budget, and the step of a client or of a busy thread takes
something away. -/
theorem step_le (hx : (F.program P).Reach (fun z => z = x₀) (lift K) x) {j : ℕ} {r r' : Role U}
    {a : Turn A} {g' : Group H S T} (hj : x.threads[j]? = some r) (hs : F.Step P x.shared r a g' r') :
    (budget L left).balance (x.after j (g', r', [])) +
      (if isBusy busy (⟨x, .step j a, x.after j (g', r', [])⟩ : Event _ _ D _) then 1 else 0) ≤
      (budget L left).balance x := by
  have hafter := (budget L left).balance_after hj (g', r', [])
  rw [total_nil, add_zero] at hafter
  cases hs with
  | @member k i a c c' hk hc =>
      have hfire := hF.fire_le (hF.member_reach hx hk) hc
      have hset := total_set L.balance hk c'
      simp only [budget, isBusy, hk, Option.bind_some] at hafter ⊢
      omega
  | @client u h u' call hn =>
      have hleft := hF.client _ _ _ _ _ _ (reach_length hx) hn
      have hcall := hF.total_enter x.shared.members call
      simp only [budget, isBusy, if_true] at hafter ⊢
      omega

theorem budget_solvent : (budget L left : Ledger (Group H S T) (Role U)).Solvent := by
  refine ⟨fun g => total_nonneg fun c _ => hF.solvent.balance_nonneg c, fun r => ?_⟩
  cases r with
  | members => exact le_rfl
  | client u => exact hF.left_nonneg u

/-- The steps of the clients and of the busy threads are within the budget. -/
theorem busy_le {b : ℤ} (start : ∀ i d, left (F.start i d) ≤ b)
    {h : List (Event (Group H S T) (Role U) D (Turn A))}
    (hx : (F.program P).Trace (fun z => z = x₀) (lift K) h x) :
    (h.countP (isBusy busy) : ℤ) ≤
      (budget L left).balance x₀ + b * h.countP Event.isCall := by
  have hle : (h.countP (isBusy busy) : ℤ) + (budget L left).balance x ≤
      (budget L left).balance x₀ + b * h.countP Event.isCall := by
    refine Program.Trace.invariant (J := fun h x => (h.countP (isBusy busy) : ℤ) +
      (budget L left).balance x ≤ (budget L left).balance x₀ + b * h.countP Event.isCall)
      ?_ ?_ ?_ hx
    · rintro y rfl
      simp
    · intro h y d _ hy _
      have hstart : (budget L left : Ledger (Group H S T) (Role U)).carried
          ((F.program P).start y.threads.length d) ≤ b := start y.threads.length d
      rw [Ledger.balance_entered, List.countP_cons_of_neg Bool.false_ne_true,
        List.countP_cons_of_pos rfl]
      push_cast
      linarith
    · intro h y j a r q hy hle _ hj hn
      obtain ⟨hs, hnew⟩ := program_step hn
      obtain ⟨g', r', new⟩ := q
      cases hnew
      change F.Step P y.shared r a g' r' at hs
      have hstep := hF.step_le hy.reach hj hs
      rw [List.countP_cons, List.countP_cons_of_neg Bool.false_ne_true]
      push_cast
      omega
  have hpos := hF.budget_solvent.balance_nonneg x
  omega

/-- As long as a client or a busy thread can go on there is something left. -/
theorem exists_atRest (allowed : ∀ c i t a, c.threads[i]? = some t → busy t = true → K c (.step i a))
    (hx : (F.program P).Reach (fun z => z = x₀) (lift K) x) (hm : .members ∈ x.threads) :
    ∃ y, (F.program P).Reach (fun z => z = x₀) (lift K) y ∧ F.AtRest P busy y := by
  induction hn : ((budget L left).balance x).toNat using Nat.strong_induction_on
    generalizing x with
  | _ n ih =>
      -- a busy step leads to a configuration with less left
      have hgo : ∀ j r a g' r', lift (D := D) K x (.step j a) → x.threads[j]? = some r →
          F.Step P x.shared r a g' r' →
          isBusy busy (⟨x, .step j a, x.after j (g', r', [])⟩ : Event _ _ D _) = true →
          ∃ y, (F.program P).Reach (fun z => z = x₀) (lift K) y ∧ F.AtRest P busy y := by
        intro j r a g' r' hg hj hs hb
        have hstep := hF.step_le hx hj hs
        rw [if_pos hb] at hstep
        have hpos := hF.budget_solvent.balance_nonneg (x.after j (g', r', []))
        have hnext := hs.program_next j
        have hmem : .members ∈ (x.after j (g', r', [])).threads := by
          by_cases hr : r = .members
          · subst hr
            cases hs
            exact List.mem_of_getElem? (Config.getElem?_after_self hj)
          · exact Config.mem_after_of_ne hj hm hr _
        exact ih _ (by omega) (hx.step hg hj hnext) hmem rfl
      by_cases hrest : F.AtRest P busy x
      · exact ⟨x, hx, hrest⟩
      · rcases not_and_or.mp hrest with hmember | hclient
        · unfold Program.AtRest at hmember
          push Not at hmember
          obtain ⟨c, hc, i, t, ht, hb, a, hr⟩ := hmember
          obtain ⟨r, hr⟩ := Option.ne_none_iff_exists'.mp hr
          obtain ⟨k, hk⟩ := List.mem_iff_getElem?.mp hc
          obtain ⟨j, hj⟩ := List.mem_iff_getElem?.mp hm
          have hfire : P.fire c (.step i a) = some (c.after i r) := by
            simp only [Program.fire, ht, hr, Option.map_some]
          refine hgo j _ (.member k i a) _ _ (fun d hd => ?_) hj (.member hk hfire) ?_
          · cases hk.symm.trans hd
            exact allowed c i t a ht hb
          · simp only [isBusy, hk, Option.bind_some, ht, Option.any_some, hb]
        · push Not at hclient
          obtain ⟨u, hu, hr⟩ := hclient
          obtain ⟨⟨h', u', call⟩, hr⟩ := Option.ne_none_iff_exists'.mp hr
          obtain ⟨j, hj⟩ := List.mem_iff_getElem?.mp hu
          exact hgo j _ .own _ _ trivial hj (.client hr) rfl

end Frugal

end Facade

end AntsPool.Interleaving
