import AntsPool.Interleaving

/-!
# Runs with their moves

A run together with the list of its moves. What a run did, how often or when, is
then a function of the list and needs no variable in the state. The rule here is for
what the steps of one thread add up to.
-/
namespace AntsPool.Interleaving

/-- A move, with the configurations before and after it. -/
structure Event (S T C A : Type) where
  before : Config S T
  move : Move C A
  after : Config S T

variable {S T C A : Type}

namespace Event

/-- Whether a move is a step of thread `i`. -/
def isStepOf (i : ℕ) (e : Event S T C A) : Bool :=
  match e.move with
  | .call _ => false
  | .step j _ => j == i

/-- The local state in which a thread made its step. -/
def actor (e : Event S T C A) : Option T :=
  match e.move with
  | .call _ => none
  | .step i _ => e.before.threads[i]?

/-- The same event with the shared states seen through `f`. -/
def mapShared {S' : Type} (f : S → S') (e : Event S T C A) : Event S' T C A :=
  ⟨e.before.mapShared f, e.move, e.after.mapShared f⟩

end Event

/-- What the steps of thread `i` add up to, each being worth `v`. -/
def tally (v : Event S T C A → ℤ) (i : ℕ) : List (Event S T C A) → ℤ
  | [] => 0
  | e :: h => (if e.isStepOf i then v e else 0) + tally v i h

/-- How many of its steps thread `i` has made that satisfy `p`. -/
def made (p : Event S T C A → Bool) : ℕ → List (Event S T C A) → ℤ :=
  tally fun e => if p e then 1 else 0

/-- What the steps of thread `i` have added to `f`. -/
def gain (f : S → ℤ) : ℕ → List (Event S T C A) → ℤ :=
  tally fun e => f e.after.shared - f e.before.shared

theorem tally_call (v : Event S T C A → ℤ) (i : ℕ) (x y : Config S T) (c : C)
    (h : List (Event S T C A)) : tally v i (⟨x, .call c, y⟩ :: h) = tally v i h := by
  simp [tally, Event.isStepOf]

theorem tally_self (v : Event S T C A → ℤ) (i : ℕ) (x y : Config S T) (a : A)
    (h : List (Event S T C A)) :
    tally v i (⟨x, .step i a, y⟩ :: h) = v ⟨x, .step i a, y⟩ + tally v i h := by
  simp [tally, Event.isStepOf]

theorem tally_other {i j : ℕ} (hij : j ≠ i) (v : Event S T C A → ℤ) (x y : Config S T) (a : A)
    (h : List (Event S T C A)) : tally v j (⟨x, .step i a, y⟩ :: h) = tally v j h := by
  simp [tally, Event.isStepOf, Ne.symm hij]

namespace Program
variable (P : Program S T C A)

/-- The runs of `Reach` with their moves, the latest first. -/
inductive Trace (I : Config S T → Prop) (G : Config S T → Move C A → Prop) :
    List (Event S T C A) → Config S T → Prop
  | init {x : Config S T} : I x → Trace I G [] x
  | move {h : List (Event S T C A)} {x y : Config S T} (m : Move C A) :
      Trace I G h x → G x m → P.fire x m = some y → Trace I G (⟨x, m, y⟩ :: h) y

variable {P} {I : Config S T → Prop} {G : Config S T → Move C A → Prop}

theorem Trace.reach {h : List (Event S T C A)} {x : Config S T} (hx : P.Trace I G h x) :
    P.Reach I G x := by
  induction hx with
  | init hx => exact .init hx
  | move m _ hg hf ih => exact .move m ih hg hf

theorem Reach.exists_trace {x : Config S T} (hx : P.Reach I G x) : ∃ h, P.Trace I G h x := by
  induction hx with
  | init hx => exact ⟨[], .init hx⟩
  | move m _ hg hf ih =>
      obtain ⟨h, hx⟩ := ih
      exact ⟨_, .move m hx hg hf⟩

theorem Trace.mono {I' : Config S T → Prop} (hI : ∀ x, I x → I' x) {h : List (Event S T C A)}
    {x : Config S T} (hx : P.Trace I G h x) : P.Trace I' G h x := by
  induction hx with
  | init hx => exact .init (hI _ hx)
  | move m _ hg hf ih => exact .move m ih hg hf

/-- Where each step of a thread is one of `P` seen through `f`, so is each run. -/
theorem Trace.over {S' : Type} {Q : Program S' T C A} {f : S → S'} {I' : Config S' T → Prop}
    {G' : Config S' T → Move C A → Prop} (init : ∀ y, I' y → ∃ x, I x ∧ y = x.mapShared f)
    (start : ∀ i c, Q.start i c = P.start i c)
    (next : ∀ x, P.Reach I G x → ∀ i t a,
      Q.next (f x.shared) i t a = (P.next x.shared i t a).map fun r => (f r.1, r.2))
    (hG : ∀ x m, G' (x.mapShared f) m → G x m) {h : List (Event S' T C A)} {y : Config S' T}
    (hy : Q.Trace I' G' h y) :
    ∃ h' x, P.Trace I G h' x ∧ h = h'.map (Event.mapShared f) ∧ y = x.mapShared f := by
  induction hy with
  | @init y hy =>
      obtain ⟨x, hx, rfl⟩ := init y hy
      exact ⟨[], x, .init hx, rfl, rfl⟩
  | @move _ _ z m _ hg hf ih =>
      obtain ⟨h', x, hx, rfl, rfl⟩ := ih
      rw [fire_mapShared start (next x hx.reach)] at hf
      obtain ⟨x', hx', rfl⟩ := Option.map_eq_some_iff.mp hf
      exact ⟨_, x', .move m hx (hG x m hg) hx', rfl, rfl⟩

/-- What a run records is a step that it made. -/
theorem Trace.fired {h : List (Event S T C A)} {x : Config S T} (hx : P.Trace I G h x)
    {e : Event S T C A} (he : e ∈ h) :
    P.Reach I G e.before ∧ P.fire e.before e.move = some e.after := by
  induction hx with
  | init hx => cases he
  | move m hx hg hf ih =>
      rcases List.mem_cons.mp he with rfl | he
      · exact ⟨hx.reach, hf⟩
      · exact ih he

/-- Only threads that exist take steps. -/
theorem Trace.isStepOf_lt {h : List (Event S T C A)} {x : Config S T} (hx : P.Trace I G h x)
    {e : Event S T C A} (he : e ∈ h) {i : ℕ} (hi : e.isStepOf i = true) : i < x.threads.length := by
  induction hx with
  | init hx => cases he
  | @move h x y m hx _ hf ih =>
      cases m with
      | call c =>
          cases hf
          rcases List.mem_cons.mp he with rfl | he
          · cases hi
          · exact (ih he).trans_le (by simp [entered])
      | step j a =>
          obtain ⟨t, r, ht, _, rfl⟩ := P.fire_step hf
          rcases List.mem_cons.mp he with rfl | he
          · obtain rfl := beq_iff_eq.mp hi
            exact (List.getElem?_eq_some_iff.mp ht).1.trans_le (x.length_le_after j r)
          · exact (ih he).trans_le (x.length_le_after j r)

/-- The local form of an invariant of the moves and the configuration. -/
theorem Trace.invariant {J : List (Event S T C A) → Config S T → Prop}
    (init : ∀ x, I x → J [] x)
    (call : ∀ h x c, P.Trace I G h x → J h x → G x (.call c) →
      J (⟨x, .call c, P.entered x c⟩ :: h) (P.entered x c))
    (step : ∀ h x i a t r, P.Trace I G h x → J h x → G x (.step i a) → x.threads[i]? = some t →
      P.next x.shared i t a = some r → J (⟨x, .step i a, x.after i r⟩ :: h) (x.after i r))
    {h : List (Event S T C A)} {x : Config S T} (hx : P.Trace I G h x) : J h x := by
  induction hx with
  | init hx => exact init _ hx
  | @move h x y m hx hg hf ih =>
      cases m with
      | call c =>
          simp only [fire, Option.some.injEq] at hf
          exact hf ▸ call h x c hx ih hg
      | step i a =>
          obtain ⟨t, r, ht, hr, rfl⟩ := P.fire_step hf
          exact step h x i a t r hx ih hg ht hr

/-- When a move out of `J` ends in `J` just under `K`, a run is in `J` all along just when
each of its moves meets `K`. -/
theorem Trace.forall_iff {J : Config S T → Prop} {K : Config S T → Move C A → Prop}
    (init : ∀ x, I x → J x)
    (step : ∀ x m y, P.Reach I G x → P.fire x m = some y → J x → (J y ↔ K x m))
    {h : List (Event S T C A)} {x : Config S T} (hx : P.Trace I G h x) :
    ((∀ e ∈ h, J e.before) ∧ J x) ↔ ∀ e ∈ h, K e.before e.move := by
  induction hx with
  | init hx => exact iff_of_true ⟨nofun, init _ hx⟩ nofun
  | @move h x y m hx _ hf ih =>
      have hstep := step x m y hx.reach hf
      simp only [List.forall_mem_cons]
      constructor
      · rintro ⟨⟨hJ, hall⟩, hy⟩
        exact ⟨(hstep hJ).mp hy, ih.mp ⟨hall, hJ⟩⟩
      · rintro ⟨hK, hall⟩
        obtain ⟨hbefore, hJ⟩ := ih.mpr hall
        exact ⟨⟨hJ, hbefore⟩, (hstep hJ).mpr hK⟩

/-- What is known of the steps of a thread from its local state. A thread that has
not taken any has tally zero, and every step adds its worth. -/
theorem Trace.tally_inv {v : Event S T C A → ℤ} {φ : T → ℤ → Prop}
    (init : ∀ x, I x → ∀ t ∈ x.threads, φ t 0) (call : ∀ i c, φ (P.start i c) 0)
    (new : ∀ s i t a r, P.next s i t a = some r → ∀ u ∈ r.2.2, φ u 0)
    (step : ∀ x i a t r n, P.Reach I G x → x.threads[i]? = some t →
      P.next x.shared i t a = some r → φ t n → φ r.2.1 (v ⟨x, .step i a, x.after i r⟩ + n))
    {h : List (Event S T C A)} {x : Config S T} (hx : P.Trace I G h x) {i : ℕ} {t : T}
    (ht : x.threads[i]? = some t) : φ t (tally v i h) := by
  have hall := Trace.invariant (J := fun h x => (∀ i, x.threads.length ≤ i → tally v i h = 0) ∧
    ∀ i t, x.threads[i]? = some t → φ t (tally v i h)) ?_ ?_ ?_ hx
  · exact hall.2 i t ht
  · intro x hx
    exact ⟨fun _ _ => rfl, fun i t ht => init x hx t (List.mem_of_getElem? ht)⟩
  · intro h x c _ ⟨hnone, hsome⟩ _
    constructor
    · intro j hj
      rw [tally_call]
      simp only [entered, List.length_append, List.length_singleton] at hj
      exact hnone j (by omega)
    · intro j u hu
      rw [tally_call]
      rcases getElem?_concat_cases hu with hu | ⟨rfl, rfl⟩
      · exact hsome j u hu
      · rw [hnone _ le_rfl]
        exact call _ c
  · intro h x j a u r hx ⟨hnone, hsome⟩ _ hu hn
    have hj := (List.getElem?_eq_some_iff.mp hu).1
    constructor
    · intro k hk
      have hle := x.length_le_after j r
      rw [tally_other (by omega)]
      exact hnone k (by omega)
    · intro k w hw
      rcases Config.getElem?_after hu hw with ⟨rfl, rfl⟩ | ⟨hk, hw⟩ | ⟨hk, hw⟩
      · rw [tally_self]
        exact step x k a u r _ hx.reach hu hn (hsome k u hu)
      · rw [tally_other hk]
        exact hsome k w hw
      · rw [tally_other (by omega), hnone k hk]
        exact new x.shared j u a r hn w hw

/-- The moves of a computed run. -/
def trace (P : Program S T C A) (G : Config S T → Move C A → Prop) [∀ x m, Decidable (G x m)] :
    List (Event S T C A) → Config S T → List (Move C A) → Option (List (Event S T C A) × Config S T)
  | h, x, [] => some (h, x)
  | h, x, m :: ms =>
      if G x m then (P.fire x m).bind fun y => trace P G (⟨x, m, y⟩ :: h) y ms else none

theorem Trace.trace [∀ x m, Decidable (G x m)] {h : List (Event S T C A)} {x : Config S T}
    {ms : List (Move C A)} {r : List (Event S T C A) × Config S T} (hx : P.Trace I G h x)
    (hr : P.trace G h x ms = some r) : P.Trace I G r.1 r.2 := by
  induction ms generalizing h x with
  | nil => exact Option.some.inj hr ▸ hx
  | cons m ms ih =>
      simp only [Program.trace] at hr
      split_ifs at hr with hg
      obtain ⟨y, hy, hr⟩ := Option.bind_eq_some_iff.mp hr
      exact ih (.move m hx hg hy) hr

/-- A computed run shows that a history of a given kind is possible. -/
theorem Trace.exists_of_trace [∀ x m, Decidable (G x m)] {x : Config S T} {m : List (Move C A)}
    {φ : List (Event S T C A) → Config S T → Bool} (hx : I x)
    (h : (P.trace G [] x m).any (fun r => φ r.1 r.2) = true) :
    ∃ h y, P.Trace I G h y ∧ φ h y = true := by
  cases hr : P.trace G [] x m with
  | none => simp [hr] at h
  | some r => exact ⟨r.1, r.2, Trace.trace (.init hx) hr, by simpa [hr] using h⟩

end Program

end AntsPool.Interleaving
