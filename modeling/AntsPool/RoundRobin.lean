import AntsPool.Delivery
import AntsPool.Rotation

/-!
# Fairness of the rotation

The cursor is a `u32` that all dispatches share. Whatever else they do, the pools that
their tickets select are a window of the wrapping counter, as long as no reboot sets the
cursor back. So the windows that are fair are those of the counter.
-/
namespace AntsPool.Delivery
open Interleaving Rotation
open MultiPool (roundRobin ticket)

variable {P : Type}

abbrev Guard (P : Type) := State P → Interleaving.Move (Option P) Env → Prop

/-- No reboot sets the cursor back. -/
def noRewind : Guard P
  | _, .step _ .rewind => False
  | _, _ => True

instance (x : State P) : (m : Interleaving.Move (Option P) Env) → Decidable (noRewind x m)
  | .step _ .rewind => inferInstanceAs (Decidable False)
  | .step _ .ok | .step _ (.running _) | .step _ (.deliver _ _) | .step _ .close
  | .step _ .reopen | .call _ => inferInstanceAs (Decidable True)

/-- What the tickets have done since the cursor stood as in `s`. -/
def Rotated (s s' : Pools P) : Prop :=
  ∃ m, s'.rotation = s.rotation ++ window (2 ^ 32) s.size (ticket s.head) m ∧
    ticket s'.head = (ticket s.head + m) % 2 ^ 32 ∧ s'.size = s.size

theorem Rotated.refl (s : Pools P) : Rotated s s := by
  refine ⟨0, ?_, ?_, rfl⟩
  · rw [window_zero, List.append_nil]
  · rw [Nat.add_zero, ticket, Nat.mod_mod]

/-- A ticket selects the next pool of the window. -/
theorem Rotated.ticket {s s' : Pools P} (h : Rotated s s') :
    Rotated s { s' with head := { s'.head with index := MultiPool.ticket s'.head },
                        rotation := s'.rotation ++ [MultiPool.ticket s'.head % s'.size] } := by
  obtain ⟨m, hrot, hticket, hsize⟩ := h
  refine ⟨m + 1, ?_, ?_, hsize⟩
  · simp only [hrot, hticket, hsize, window_succ, List.append_assoc]
  · change (MultiPool.ticket s'.head + 1) % 2 ^ 32 = _
    rw [hticket, Nat.mod_add_mod, Nat.add_assoc]

theorem Dispatch.Step.rotated {s s' s₀ : Pools P} {i : ℕ} {t t' : Dispatch P}
    (h : Dispatch.Step s i t s' t') (hs : Rotated s₀ s) : Rotated s₀ s' := by
  cases h with
  | ticket => exact hs.ticket
  | _ => exact hs

/-- Without a reboot the selected pools are a window of the wrapping counter. -/
theorem rotated_of_run {x y : State P}
    (h : (program P).Reach (fun z => z = x) noRewind y) : Rotated x.shared y.shared := by
  refine Program.Reach.invariant (J := fun y => Rotated x.shared y.shared) ?_ ?_ ?_ h
  · rintro y rfl
    exact .refl y.shared
  · exact fun _ _ _ hy _ => hy
  · intro y i a t r _ hy hg _ hr
    cases t with
    | others =>
        obtain ⟨s', hs, rfl⟩ := Option.map_eq_some_iff.mp hr
        cases a with
        | close | reopen =>
            cases hs
            exact hy
        | rewind => exact hg.elim
        | ok | running r | deliver c w => cases hs
    | dispatch t =>
        obtain ⟨q, hq, rfl⟩ := Option.map_eq_some_iff.mp hr
        exact (Dispatch.next_step hq).rotated hy

/-- The tickets of every window of every run without a reboot between them select any two
pools equally often, up to one, exactly when the window of the wrapping counter does. -/
theorem round_robin_fair_iff {x y : State P} (hx : Run x)
    (hy : (program P).Reach (fun z => z = x) noRewind y) {w : List ℕ}
    (hw : y.shared.rotation = x.shared.rotation ++ w) :
    Fair x.shared.size w ↔
      fairWindow (2 ^ 32) x.shared.size (ticket x.shared.head) w.length := by
  obtain ⟨m, hrot, _, _⟩ := rotated_of_run hy
  obtain rfl := List.append_cancel_left (hw.symm.trans hrot)
  rw [length_window]
  exact fair_window_iff hx.valid.size_pos (Nat.mod_lt _ (by decide)) m

theorem exists_start (P : Type) {n : ℕ} (hn : 0 < n) :
    ∃ x : State P, Starts x ∧ x.shared.size = n ∧
      x.shared.head = ⟨2 ^ 32 - 1, .opened, roundRobin⟩ := by
  refine ⟨⟨{ head := ⟨2 ^ 32 - 1, .opened, roundRobin⟩, size := n }, [.others]⟩,
    ⟨n, roundRobin, ?_⟩, rfl, rfl⟩
  simp [new, hn.ne']

/-- One more dispatch takes the next ticket. -/
theorem exists_run_ticket {I : State P → Prop} {G : Guard P} (hG : ∀ z i, G z (.step i .ok))
    (hcall : ∀ z c, G z (.call c)) (p : P) {x : State P} (hx : (program P).Reach I G x)
    (hs : x.shared.head.state = .opened) (hl : x.shared.head.lbs = roundRobin) :
    ∃ y : State P, (program P).Reach I G y ∧ y.shared =
      { x.shared with
        head := { x.shared.head with index := ticket x.shared.head },
        rotation := x.shared.rotation ++ [ticket x.shared.head % x.shared.size] } := by
  have hopen : x.shared.head.isClosed = false := by rw [MultiPool.MultiPoolCore.isClosed, hs]; rfl
  have h₁ := Program.Reach.move (.call (some p)) hx (hcall x _) rfl
  have h₂ := h₁.step (hG _ _) (t := .dispatch { payload := p, argument := p })
    (r := (x.shared, .dispatch ⟨p, p, false, [], .ticket⟩, [])) List.getElem?_concat_length (by
      simp [program, Program.entered, Dispatch.next, hopen, select, hl])
  have h₃ := h₂.step (hG _ _) (Config.getElem?_after_self List.getElem?_concat_length)
    (by simp only [program, Dispatch.next, Option.map_some]; rfl)
  exact ⟨_, h₃, rfl⟩

/-- Any number of dispatches in a row take the tickets of a window. -/
theorem exists_run_window [Inhabited P] {I : State P → Prop} {G : Guard P}
    (hG : ∀ z i, G z (.step i .ok)) (hcall : ∀ z c, G z (.call c)) {x : State P}
    (hx : (program P).Reach I G x) (hs : x.shared.head.state = .opened)
    (hl : x.shared.head.lbs = roundRobin) (m : ℕ) :
    ∃ y : State P, (program P).Reach I G y ∧
      y.shared.head.state = .opened ∧ y.shared.head.lbs = roundRobin ∧
      y.shared.size = x.shared.size ∧
      ticket y.shared.head = (ticket x.shared.head + m) % 2 ^ 32 ∧
      y.shared.rotation =
        x.shared.rotation ++ window (2 ^ 32) x.shared.size (ticket x.shared.head) m := by
  induction m with
  | zero =>
      refine ⟨x, hx, hs, hl, rfl, ?_, ?_⟩
      · rw [Nat.add_zero, ticket, Nat.mod_mod]
      · rw [window_zero, List.append_nil]
  | succ m ih =>
      obtain ⟨y, hy, hstate, hlbs, hsize, hticket, hrot⟩ := ih
      obtain ⟨z, hz, heq⟩ := exists_run_ticket hG hcall default hy hstate hlbs
      refine ⟨z, hz, ?_⟩
      rw [heq]
      refine ⟨hstate, hlbs, hsize, ?_, ?_⟩
      · rw [ticket, hticket, Nat.mod_add_mod, Nat.add_assoc]
      · simp only [hrot, hticket, hsize, window_succ, List.append_assoc]

/-- The cursor takes every value. -/
theorem exists_run_cursor [Inhabited P] {n : ℕ} (hn : 0 < n) (q : ℕ) :
    ∃ x : State P, Run x ∧ x.shared.size = n ∧ x.shared.head.state = .opened ∧
      x.shared.head.lbs = roundRobin ∧ ticket x.shared.head = q % 2 ^ 32 := by
  obtain ⟨x, hx, hsize, hhead⟩ := exists_start P hn
  have hs : x.shared.head.state = .opened := by rw [hhead]
  have hl : x.shared.head.lbs = roundRobin := by rw [hhead]
  have hzero : ticket x.shared.head = 0 := by rw [hhead]; rfl
  obtain ⟨y, hy, hstate, hlbs, hsize', hticket, _⟩ := exists_run_window (G := fun _ _ => True)
    (fun _ _ => trivial) (fun _ _ => trivial) (.init hx) hs hl q
  rw [hzero, Nat.zero_add] at hticket
  exact ⟨y, hy, hsize'.trans hsize, hstate, hlbs, hticket⟩

/-- Three pools, and a window that starts at the last ticket before the wrap. -/
theorem exists_run_wrap (m : ℕ) :
    ∃ x y : State ℕ, Run x ∧ (program ℕ).Reach (fun z => z = x) noRewind y ∧ x.shared.size = 3 ∧
      ticket x.shared.head = 2 ^ 32 - 1 ∧
      y.shared.rotation = x.shared.rotation ++ window (2 ^ 32) 3 (2 ^ 32 - 1) m := by
  obtain ⟨x, hx, hsize, hstate, hlbs, hticket⟩ :=
    exists_run_cursor (P := ℕ) (n := 3) (by decide) (2 ^ 32 - 1)
  obtain ⟨y, hy, _, _, _, _, hrot⟩ := exists_run_window (I := fun z => z = x) (G := noRewind)
    (fun _ _ => trivial) (fun _ _ => trivial) (.init rfl) hstate hlbs m
  rw [hsize, hticket] at hrot
  exact ⟨x, y, hx, hy, hsize, hticket, hrot⟩

/-- The ticket before the wrap selects the first pool, and the next three all in turn. -/
theorem round_robin_fair_iff_wrap :
    ∃ x y : State ℕ, Run x ∧ (program ℕ).Reach (fun z => z = x) noRewind y ∧
      y.shared.rotation = x.shared.rotation ++ [0, 0, 1, 2] ∧
      ticket x.shared.head = 2 ^ 32 - 1 ∧ Fair x.shared.size [0, 0, 1, 2] := by
  obtain ⟨x, y, hx, hy, hsize, hticket, hrot⟩ := exists_run_wrap 4
  refine ⟨x, y, hx, hy, hrot, hticket, (round_robin_fair_iff hx hy hrot).mpr ?_⟩
  rw [hsize, hticket]
  decide

/-- Two consecutive tickets select the first of three pools, and the second is selected by
neither. -/
theorem round_robin_repeats :
    ∃ x y : State ℕ, Run x ∧ (program ℕ).Reach (fun z => z = x) noRewind y ∧
      y.shared.rotation = x.shared.rotation ++ [0, 0] ∧ ¬ Fair x.shared.size [0, 0] := by
  obtain ⟨x, y, hx, hy, hsize, _, hrot⟩ := exists_run_wrap 2
  refine ⟨x, y, hx, hy, hrot, ?_⟩
  rw [hsize]
  decide

end AntsPool.Delivery
