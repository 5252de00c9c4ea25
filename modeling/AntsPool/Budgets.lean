import AntsPool.Traces

/-!
# Runs that come to an end

A ledger without negative entries is a budget when no step adds to it and every step
of a busy thread takes something away. However the threads are interleaved, the busy
steps of a run are then no more than what the ledger had and what the calls brought.
When no busy thread can take a step any more, the run has come to rest.
-/
namespace AntsPool.Interleaving
open ListTotals

variable {S T C A : Type}

namespace Event

def isCall (e : Event S T C A) : Bool :=
  match e.move with
  | .call _ => true
  | .step _ _ => false

/-- Whether a move is a step of a busy thread. -/
def isBusy (busy : T → Bool) (e : Event S T C A) : Bool := e.actor.any busy

end Event

namespace Ledger

/-- Neither the shared state nor a thread is in debt. -/
structure Solvent (L : Ledger S T) : Prop where
  held : ∀ s, 0 ≤ L.held s
  carried : ∀ t, 0 ≤ L.carried t

theorem Solvent.balance_nonneg {L : Ledger S T} (h : L.Solvent) (x : Config S T) :
    0 ≤ L.balance x :=
  add_nonneg (h.held x.shared) (total_nonneg fun t _ => h.carried t)

end Ledger

namespace Program
variable {P : Program S T C A} {G : Config S T → Move C A → Prop}

/-- No busy thread can take a step. -/
def AtRest (P : Program S T C A) (busy : T → Bool) (x : Config S T) : Prop :=
  ∀ i t, x.threads[i]? = some t → busy t = true → ∀ a, P.next x.shared i t a = none

/-- What the busy steps take away was there at first or came in with the calls. -/
theorem Trace.busy_add_balance_le {L : Ledger S T} {busy : T → Bool} {k : ℤ} {x₀ : Config S T}
    (call : ∀ i c, L.carried (P.start i c) ≤ k)
    (step : ∀ x i a t r, P.Reach (fun z => z = x₀) G x → x.threads[i]? = some t →
      P.next x.shared i t a = some r →
      L.held r.1 + L.carried r.2.1 + total L.carried r.2.2 + (if busy t then 1 else 0) ≤
        L.held x.shared + L.carried t)
    {h : List (Event S T C A)} {x : Config S T} (hx : P.Trace (fun z => z = x₀) G h x) :
    (h.countP (Event.isBusy busy) : ℤ) + L.balance x ≤
      L.balance x₀ + k * h.countP Event.isCall := by
  refine Trace.invariant (J := fun h x => (h.countP (Event.isBusy busy) : ℤ) + L.balance x ≤
    L.balance x₀ + k * h.countP Event.isCall) ?_ ?_ ?_ hx
  · rintro y rfl
    simp
  · intro h y c _ hy _
    have hstart := call y.threads.length c
    rw [L.balance_entered, List.countP_cons_of_neg (by simp [Event.isBusy, Event.actor]),
      List.countP_cons_of_pos (by rfl)]
    push_cast
    linarith
  · intro h y i a t r hy hle _ ht hn
    have hstep := step y i a t r hy.reach ht hn
    have hafter := L.balance_after ht r
    have hbusy : Event.isBusy busy (⟨y, .step i a, y.after i r⟩ : Event S T C A) = busy t := by
      simp [Event.isBusy, Event.actor, ht]
    rw [List.countP_cons, List.countP_cons_of_neg (by simp [Event.isCall]), hbusy]
    push_cast
    omega

/-- Without debts the busy steps are within the budget. -/
theorem Trace.busy_le {L : Ledger S T} {busy : T → Bool} {k : ℤ} {x₀ : Config S T}
    (solvent : L.Solvent) (call : ∀ i c, L.carried (P.start i c) ≤ k)
    (step : ∀ x i a t r, P.Reach (fun z => z = x₀) G x → x.threads[i]? = some t →
      P.next x.shared i t a = some r →
      L.held r.1 + L.carried r.2.1 + total L.carried r.2.2 + (if busy t then 1 else 0) ≤
        L.held x.shared + L.carried t)
    {h : List (Event S T C A)} {x : Config S T} (hx : P.Trace (fun z => z = x₀) G h x) :
    (h.countP (Event.isBusy busy) : ℤ) ≤ L.balance x₀ + k * h.countP Event.isCall := by
  have hle := Trace.busy_add_balance_le call step hx
  have hpos := solvent.balance_nonneg x
  omega

/-- As long as a busy thread can take a step there is something left, so a run that lets
them comes to rest. -/
theorem Reach.exists_atRest {L : Ledger S T} {busy : T → Bool} {x₀ : Config S T}
    (solvent : L.Solvent)
    (allowed : ∀ x i t a, x.threads[i]? = some t → busy t = true → G x (.step i a))
    (step : ∀ x i a t r, P.Reach (fun z => z = x₀) G x → x.threads[i]? = some t →
      P.next x.shared i t a = some r →
      L.held r.1 + L.carried r.2.1 + total L.carried r.2.2 + (if busy t then 1 else 0) ≤
        L.held x.shared + L.carried t)
    {x : Config S T} (hx : P.Reach (fun z => z = x₀) G x) :
    ∃ y, P.Reach (fun z => z = x₀) G y ∧ P.AtRest busy y := by
  induction hn : (L.balance x).toNat using Nat.strong_induction_on generalizing x with
  | _ n ih =>
      by_cases hrest : P.AtRest busy x
      · exact ⟨x, hx, hrest⟩
      · unfold AtRest at hrest
        push Not at hrest
        obtain ⟨i, t, ht, hbusy, a, hr⟩ := hrest
        obtain ⟨r, hr⟩ := Option.ne_none_iff_exists'.mp hr
        have hstep := step x i a t r hx ht hr
        have hafter := L.balance_after ht r
        have hpos := solvent.balance_nonneg x
        have hpos' := solvent.balance_nonneg (x.after i r)
        rw [if_pos hbusy] at hstep
        exact ih _ (by omega) (hx.step (allowed x i t a ht hbusy) ht hr) rfl

end Program

end AntsPool.Interleaving
