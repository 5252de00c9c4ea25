import AntsPool.Interleaving

/-!
# A façade over several instances of a program

The members of a group are configurations of one program. The clients of the façade
share a head of their own, see the members and call into them; a call appends a
thread to its member and returns by itself. The threads inside the members take
their steps through one thread that stands for them all, so a façade over a program
is a program again, and every member of a reached group is reached by the program
of the members.
-/
namespace AntsPool.Interleaving

structure Facade (S T C H U D : Type) where
  start : ℕ → D → U
  /-- One step of a client: new head, new local state, and a call into a member. -/
  next : H → List (Config S T) → U → Option (H × U × Option (ℕ × C))

structure Group (H S T : Type) where
  head : H
  members : List (Config S T)

inductive Role (U : Type)
  | members
  | client (u : U)
deriving DecidableEq

/-- Who takes the step: thread `i` of member `k`, or the client itself. -/
inductive Turn (A : Type)
  | member (k i : ℕ) (a : A)
  | own

variable {S T C A H U D : Type}

/-- The members after a call into one of them. -/
def Program.enter (P : Program S T C A) (members : List (Config S T)) :
    Option (ℕ × C) → List (Config S T)
  | none => members
  | some (k, c) => members.modify k fun m => P.entered m c

namespace Facade

def program (F : Facade S T C H U D) (P : Program S T C A) :
    Program (Group H S T) (Role U) D (Turn A) where
  start i d := .client (F.start i d)
  next g _ r a :=
    match r, a with
    | .members, .member k i a =>
        g.members[k]?.bind fun c => (P.fire c (.step i a)).map fun c' =>
          ({ g with members := g.members.set k c' }, .members, [])
    | .client u, .own =>
        (F.next g.head g.members u).map fun r =>
          (⟨r.1, P.enter g.members r.2.2⟩, .client r.2.1, [])
    | _, _ => none

variable (F : Facade S T C H U D) (P : Program S T C A)

inductive Step (g : Group H S T) : Role U → Turn A → Group H S T → Role U → Prop
  | member {k i a c c'} (hk : g.members[k]? = some c) (hc : P.fire c (.step i a) = some c') :
      Step g .members (.member k i a) { g with members := g.members.set k c' } .members
  | client {u h u' call} (hn : F.next g.head g.members u = some (h, u', call)) :
      Step g (.client u) .own ⟨h, P.enter g.members call⟩ (.client u')

variable {F P}

theorem program_step {g : Group H S T} {i : ℕ} {r : Role U} {a : Turn A}
    {q : Group H S T × Role U × List (Role U)} (h : (F.program P).next g i r a = some q) :
    F.Step P g r a q.1 q.2.1 ∧ q.2.2 = [] := by
  cases r with
  | members =>
      cases a with
      | member k i a =>
          obtain ⟨c, hk, h⟩ := Option.bind_eq_some_iff.mp h
          obtain ⟨c', hc, rfl⟩ := Option.map_eq_some_iff.mp h
          exact ⟨.member hk hc, rfl⟩
      | own => cases h
  | client u =>
      cases a with
      | member k i a => cases h
      | own =>
          obtain ⟨r, hn, rfl⟩ := Option.map_eq_some_iff.mp h
          exact ⟨.client hn, rfl⟩

@[simp] theorem length_enter (members : List (Config S T)) (call : Option (ℕ × C)) :
    (P.enter members call).length = members.length := by
  cases call with
  | none => rfl
  | some kc => simp only [Program.enter, List.length_modify]

theorem getElem?_enter_self (members : List (Config S T)) (k : ℕ) (c : C) :
    (P.enter members (some (k, c)))[k]? = members[k]?.map fun m => P.entered m c :=
  List.getElem?_modify_eq _ _ _

theorem getElem?_enter_other {members : List (Config S T)} {call : Option (ℕ × C)} {k : ℕ}
    (h : ∀ c, call ≠ some (k, c)) : (P.enter members call)[k]? = members[k]? := by
  cases call with
  | none => rfl
  | some lc =>
      obtain ⟨l, c⟩ := lc
      have hne : l ≠ k := by
        rintro rfl
        exact h c rfl
      exact List.getElem?_modify_ne _ _ hne

/-- A member after a call is an old one that was not called, or the one called into. -/
theorem enter_cases {members : List (Config S T)} {call : Option (ℕ × C)} {k : ℕ}
    {c' : Config S T} (h : (P.enter members call)[k]? = some c') :
    (members[k]? = some c' ∧ ∀ d, call ≠ some (k, d)) ∨
      ∃ c d, members[k]? = some c ∧ call = some (k, d) ∧ c' = P.entered c d := by
  by_cases hcall : ∃ d, call = some (k, d)
  · obtain ⟨d, rfl⟩ := hcall
    rw [getElem?_enter_self] at h
    obtain ⟨c, hc, rfl⟩ := Option.map_eq_some_iff.mp h
    exact .inr ⟨c, d, hc, rfl, rfl⟩
  · have hother : ∀ d, call ≠ some (k, d) := fun d hd => hcall ⟨d, hd⟩
    rw [getElem?_enter_other hother] at h
    exact .inl ⟨h, hother⟩

/-- A member after a step is the old one, or the old one after a move of its own. -/
theorem Step.member_cases {g g' : Group H S T} {r r' : Role U} {a : Turn A}
    (h : F.Step P g r a g' r') {k : ℕ} {c' : Config S T} (hk : g'.members[k]? = some c') :
    g.members[k]? = some c' ∨ ∃ c, g.members[k]? = some c ∧
      ((∃ i b, a = .member k i b ∧ P.fire c (.step i b) = some c') ∨
        ∃ d, c' = P.entered c d) := by
  cases h with
  | @member l i b c d hl hc =>
      rcases eq_or_ne l k with rfl | hne
      · have hlen := (List.getElem?_eq_some_iff.mp hl).1
        rw [List.getElem?_set_self hlen] at hk
        cases hk
        exact .inr ⟨c, hl, .inl ⟨i, b, rfl, hc⟩⟩
      · rw [List.getElem?_set_ne hne] at hk
        exact .inl hk
  | client =>
      rcases enter_cases hk with ⟨hk, _⟩ | ⟨c, d, hc, rfl, rfl⟩
      · exact .inl hk
      · exact .inr ⟨c, hc, .inr ⟨d, rfl⟩⟩

theorem Step.length_members {g g' : Group H S T} {r r' : Role U} {a : Turn A}
    (h : F.Step P g r a g' r') : g'.members.length = g.members.length := by
  cases h with
  | member => exact List.length_set
  | client => exact length_enter _ _

/-- A guard of the members, as one of the group. -/
def lift (G : Config S T → Move C A → Prop) (x : Config (Group H S T) (Role U)) :
    Move D (Turn A) → Prop
  | .step _ (.member k i a) => ∀ c ∈ x.shared.members[k]?, G c (.step i a)
  | _ => True

instance (G : Config S T → Move C A → Prop) [∀ c m, Decidable (G c m)]
    (x : Config (Group H S T) (Role U)) : (m : Move D (Turn A)) → Decidable (lift G x m)
  | .step _ (.member k i a) =>
      inferInstanceAs (Decidable (∀ c ∈ x.shared.members[k]?, G c (.step i a)))
  | .step _ .own => inferInstanceAs (Decidable True)
  | .call _ => inferInstanceAs (Decidable True)

theorem lift_of_forall {K : Config S T → Move C A → Prop} (hK : ∀ c m, K c m)
    (x : Config (Group H S T) (Role U)) (m : Move D (Turn A)) : lift K x m := by
  cases m with
  | call d => trivial
  | step i a =>
      cases a with
      | member k i a => exact fun c _ => hK c _
      | own => trivial

variable {I : Config (Group H S T) (Role U) → Prop}
  {G : Config (Group H S T) (Role U) → Move D (Turn A) → Prop}

/-- The rule for invariants, with the step relation. -/
theorem invariant {J : Config (Group H S T) (Role U) → Prop} (init : ∀ x, I x → J x)
    (call : ∀ x d, (F.program P).Reach I G x → J x → G x (.call d) →
      J ⟨x.shared, x.threads ++ [.client (F.start x.threads.length d)]⟩)
    (step : ∀ x i a r g' r', (F.program P).Reach I G x → J x → G x (.step i a) →
      x.threads[i]? = some r → F.Step P x.shared r a g' r' → J (x.after i (g', r', [])))
    {x : Config (Group H S T) (Role U)} (h : (F.program P).Reach I G x) : J x := by
  refine Program.Reach.invariant init call ?_ h
  rintro y i a r ⟨g', r', new⟩ hr hy hg ht hn
  obtain ⟨hs, rfl⟩ := program_step hn
  exact step y i a r g' r' hr hy hg ht hs

/-- Members neither come nor go. -/
theorem reach_length {x₀ x : Config (Group H S T) (Role U)}
    (h : (F.program P).Reach (fun z => z = x₀) G x) :
    x.shared.members.length = x₀.shared.members.length := by
  refine invariant (J := fun x => x.shared.members.length = x₀.shared.members.length) ?_ ?_ ?_ h
  · rintro x rfl
    rfl
  · exact fun _ _ _ hx _ => hx
  · exact fun _ _ _ _ _ _ _ hx _ _ hs => hs.length_members.trans hx

/-- Every member of a reached group is reached by the program of the members. -/
theorem member_reach {Init : Config S T → Prop} {K : Config S T → Move C A → Prop}
    (hI : ∀ x, I x → ∀ c ∈ x.shared.members, Init c) (hcall : ∀ c d, K c (.call d))
    (hG : ∀ x m, G x m → lift K x m) {x : Config (Group H S T) (Role U)}
    (h : (F.program P).Reach I G x) {k : ℕ} {c : Config S T} (hk : x.shared.members[k]? = some c) :
    P.Reach Init K c := by
  refine invariant (J := fun x => ∀ k c, x.shared.members[k]? = some c → P.Reach Init K c)
    ?_ ?_ ?_ h k c hk
  · exact fun y hy k c hk => .init (hI y hy c (List.mem_of_getElem? hk))
  · exact fun _ _ _ hy _ => hy
  · intro y i a r g' r' _ hy hg ht hs k c hk
    rcases hs.member_cases hk with hk | ⟨c₀, hk₀, ⟨j, b, rfl, hc⟩ | ⟨d, rfl⟩⟩
    · exact hy k c hk
    · exact .move _ (hy k c₀ hk₀) (hG y _ hg c₀ hk₀) hc
    · exact .move (.call d) (hy k c₀ hk₀) (hcall c₀ d) rfl

end Facade

end AntsPool.Interleaving
