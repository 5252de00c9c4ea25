import AntsPool.ListTotals

/-!
# Interleavings of threads over a shared state

A program says how one thread, in a local state, moves the shared state. A
configuration is the shared state with the list of all threads ever started; a
thread that has returned keeps its position and its last local state. A move
either starts a call, which appends a thread, or lets one thread take one step.
All nondeterminism is in the moves, so a configuration and a list of moves
determine the run.

Runs are taken under a guard, a condition on a move and on the configuration
it leaves. An invariant is proved from its local cases. A ledger is a quantity
held partly by the shared state and partly carried by the threads: when every
local step keeps it, the balance never changes in any interleaving.
-/
namespace AntsPool.Interleaving
open ListTotals

structure Program (S T C A : Type) where
  /-- The local state of a new call; the number is the position of its thread. -/
  start : ℕ → C → T
  /-- One step of thread `i`: new shared state, new local state, started threads. -/
  next : S → ℕ → T → A → Option (S × T × List T)

structure Config (S T : Type) where
  shared : S
  threads : List T

inductive Move (C A : Type)
  | call (c : C)
  | step (i : ℕ) (a : A)

variable {S T C A : Type}

theorem getElem?_concat_cases {l : List T} {t u : T} {j : ℕ} (h : (l ++ [t])[j]? = some u) :
    l[j]? = some u ∨ (j = l.length ∧ u = t) := by
  by_cases hj : j < l.length
  · exact .inl (by rwa [List.getElem?_append_left hj] at h)
  · have hlen := (List.getElem?_eq_some_iff.mp h).1
    simp only [List.length_append, List.length_singleton] at hlen
    obtain rfl : j = l.length := by omega
    rw [List.getElem?_concat_length] at h
    exact .inr ⟨rfl, (Option.some.inj h).symm⟩

namespace Config

/-- The configuration after thread `i` took a local step. -/
def after (x : Config S T) (i : ℕ) (r : S × T × List T) : Config S T :=
  ⟨r.1, x.threads.set i r.2.1 ++ r.2.2⟩

theorem total_after (f : T → ℤ) {x : Config S T} {i : ℕ} {t : T} (h : x.threads[i]? = some t)
    (r : S × T × List T) :
    total f (x.after i r).threads + f t = total f x.threads + f r.2.1 + total f r.2.2 := by
  have := total_set f h r.2.1
  simp only [after, total_append]
  omega

theorem countP_after (p : T → Bool) {x : Config S T} {i : ℕ} {t : T}
    (h : x.threads[i]? = some t) {r : S × T × List T} (hnew : ∀ u ∈ r.2.2, p u = false) :
    ((x.after i r).threads.countP p : ℤ) + (if p t then 1 else 0) =
      x.threads.countP p + (if p r.2.1 then 1 else 0) := by
  have htot := total_after (fun u => if p u then 1 else 0) h r
  have hzero : r.2.2.countP p = 0 := List.countP_eq_zero.mpr fun u hu => by simp [hnew u hu]
  simp only [total_indicator, hzero] at htot
  omega

/-- A thread after a step is the stepping one, an old one elsewhere or a new one. -/
theorem getElem?_after {x : Config S T} {i j : ℕ} {r : S × T × List T} {u t : T}
    (hi : x.threads[i]? = some t) (h : (x.after i r).threads[j]? = some u) :
    (j = i ∧ u = r.2.1) ∨ (j ≠ i ∧ x.threads[j]? = some u) ∨
      (x.threads.length ≤ j ∧ u ∈ r.2.2) := by
  have hlen := (List.getElem?_eq_some_iff.mp hi).1
  simp only [after] at h
  by_cases hj : j < x.threads.length
  · rw [List.getElem?_append_left (by simpa using hj)] at h
    by_cases hji : j = i
    · subst hji
      rw [List.getElem?_set_self hlen, Option.some.injEq] at h
      exact .inl ⟨rfl, h.symm⟩
    · rw [List.getElem?_set_ne (Ne.symm hji)] at h
      exact .inr (.inl ⟨hji, h⟩)
  · rw [List.getElem?_append_right (by simpa using hj)] at h
    exact .inr (.inr ⟨by omega, List.mem_of_getElem? h⟩)

theorem mem_after {x : Config S T} {i : ℕ} {r : S × T × List T} {u : T}
    (h : u ∈ (x.after i r).threads) : u ∈ x.threads ∨ u = r.2.1 ∨ u ∈ r.2.2 := by
  simp only [after, List.mem_append] at h
  rcases h with h | h
  · rcases List.mem_or_eq_of_mem_set h with h | h
    · exact .inl h
    · exact .inr (.inl h)
  · exact .inr (.inr h)

theorem length_le_after (x : Config S T) (i : ℕ) (r : S × T × List T) :
    x.threads.length ≤ (x.after i r).threads.length := by
  simp [after]

theorem getElem?_after_ne {x : Config S T} {i j : ℕ} {r : S × T × List T} {u : T}
    (hij : j ≠ i) (h : x.threads[j]? = some u) : (x.after i r).threads[j]? = some u := by
  have hlen := (List.getElem?_eq_some_iff.mp h).1
  simp only [after]
  rw [List.getElem?_append_left (by simpa using hlen), List.getElem?_set_ne (Ne.symm hij), h]

/-- A thread in another state than the stepping one stays. -/
theorem mem_after_of_ne {x : Config S T} {i : ℕ} {t u : T} (hi : x.threads[i]? = some t)
    (hu : u ∈ x.threads) (hne : t ≠ u) (r : S × T × List T) : u ∈ (x.after i r).threads := by
  obtain ⟨j, hj⟩ := List.mem_iff_getElem?.mp hu
  refine List.mem_of_getElem? (getElem?_after_ne (i := i) (fun hji => hne ?_) hj)
  subst hji
  exact Option.some.inj (hi.symm.trans hj)

variable {U : Type}

/-- The same configuration with the local states seen through `f`. -/
def map (f : T → U) (x : Config S T) : Config S U := ⟨x.shared, x.threads.map f⟩

theorem map_after (f : T → U) (x : Config S T) (i : ℕ) (r : S × T × List T) :
    (x.after i r).map f = (x.map f).after i (r.1, f r.2.1, r.2.2.map f) := by
  simp only [after, map, List.map_append, List.map_set]

/-- The same configuration with the shared state seen through `f`. -/
def mapShared {S' : Type} (f : S → S') (x : Config S T) : Config S' T := ⟨f x.shared, x.threads⟩

theorem getElem?_after_self {x : Config S T} {i : ℕ} {r : S × T × List T} {t : T}
    (h : x.threads[i]? = some t) : (x.after i r).threads[i]? = some r.2.1 := by
  have hlen := (List.getElem?_eq_some_iff.mp h).1
  simp only [after]
  rw [List.getElem?_append_left (by simpa using hlen), List.getElem?_set_self hlen]

/-- A thread that starts nobody and stays as it is. -/
theorem after_self {x : Config S T} {i : ℕ} {t : T} (h : x.threads[i]? = some t) (s : S) :
    x.after i (s, t, []) = ⟨s, x.threads⟩ := by
  have hset : x.threads.set i t = x.threads := by
    obtain ⟨hi, rfl⟩ := List.getElem?_eq_some_iff.mp h
    exact List.set_getElem_self hi
  simp only [after, List.append_nil, hset]

/-- Two steps of one thread in a row. -/
theorem after_after {x : Config S T} {i : ℕ} {t : T} (h : x.threads[i]? = some t)
    (r r' : S × T × List T) :
    (x.after i r).after i r' = x.after i (r'.1, r'.2.1, r.2.2 ++ r'.2.2) := by
  have hlen := (List.getElem?_eq_some_iff.mp h).1
  simp only [after]
  rw [List.set_append_left _ _ (by simpa using hlen), List.set_set, List.append_assoc]

end Config

namespace Program
variable (P : Program S T C A)

/-- The configuration after a call came in. -/
def entered (x : Config S T) (c : C) : Config S T :=
  ⟨x.shared, x.threads ++ [P.start x.threads.length c]⟩

def fire (x : Config S T) : Move C A → Option (Config S T)
  | .call c => some (P.entered x c)
  | .step i a =>
      match x.threads[i]? with
      | none => none
      | some t => (P.next x.shared i t a).map (x.after i)

/-- What a step of the interleaving is, said once. -/
theorem fire_step {x y : Config S T} {i : ℕ} {a : A} (h : P.fire x (.step i a) = some y) :
    ∃ t r, x.threads[i]? = some t ∧ P.next x.shared i t a = some r ∧ y = x.after i r := by
  simp only [fire] at h
  split at h
  · cases h
  · rename_i t ht
    obtain ⟨r, hr, rfl⟩ := Option.map_eq_some_iff.mp h
    exact ⟨t, r, ht, hr, rfl⟩

/-- Runs from `I` all of whose moves meet the guard `G`. -/
inductive Reach (I : Config S T → Prop) (G : Config S T → Move C A → Prop) :
    Config S T → Prop
  | init {x : Config S T} : I x → Reach I G x
  | move {x y : Config S T} (m : Move C A) :
      Reach I G x → G x m → P.fire x m = some y → Reach I G y

variable {P} {I : Config S T → Prop} {G : Config S T → Move C A → Prop}

/-- Runs compose. -/
theorem Reach.trans {x y : Config S T} (hx : P.Reach I G x)
    (h : P.Reach (fun z => z = x) G y) : P.Reach I G y := by
  induction h with
  | init hz => exact hz ▸ hx
  | move m _ hg hf ih => exact .move m ih hg hf

theorem Reach.mono {I' : Config S T → Prop} (hI : ∀ x, I x → I' x) {x : Config S T}
    (hx : P.Reach I G x) : P.Reach I' G x := by
  induction hx with
  | init hx => exact .init (hI _ hx)
  | move m _ hg hf ih => exact .move m ih hg hf

/-- A run under a guard is one under any weaker guard. -/
theorem Reach.weaken {G' : Config S T → Move C A → Prop} (hG : ∀ x m, G x m → G' x m)
    {x : Config S T} (hx : P.Reach I G x) : P.Reach I G' x := by
  induction hx with
  | init hx => exact .init hx
  | move m _ hg hf ih => exact .move m ih (hG _ m hg) hf

/-- What the guard implies on a run may guard the run. -/
theorem Reach.strengthen {G' : Config S T → Move C A → Prop}
    (hG : ∀ x m, P.Reach I G x → G x m → G' x m) {x : Config S T} (hx : P.Reach I G x) :
    P.Reach I G' x := by
  induction hx with
  | init hx => exact .init hx
  | move m hr hg hf ih => exact .move m ih (hG _ m hr hg) hf

/-- A run starts somewhere. -/
theorem Reach.exists_start {x : Config S T} (hx : P.Reach I G x) :
    ∃ x₀, I x₀ ∧ P.Reach (fun z => z = x₀) G x := by
  induction hx with
  | @init x hx => exact ⟨x, hx, .init rfl⟩
  | move m _ hg hf ih =>
      obtain ⟨x₀, hx₀, hreach⟩ := ih
      exact ⟨x₀, hx₀, .move m hreach hg hf⟩

/-- One thread takes a step. -/
theorem Reach.step {x : Config S T} {i : ℕ} {a : A} {t : T} {r : S × T × List T}
    (hx : P.Reach I G x) (hg : G x (.step i a)) (ht : x.threads[i]? = some t)
    (hn : P.next x.shared i t a = some r) : P.Reach I G (x.after i r) :=
  .move (.step i a) hx hg (by simp only [fire, ht, hn, Option.map_some])

/-- A program each of whose steps is one of `Q`, seen through `f`, has the runs of `Q`. -/
theorem Reach.map {U B : Type} {Q : Program S U C B} {f : T → U} {I' : Config S U → Prop}
    {G' : Config S U → Move C B → Prop} (init : ∀ x, I x → I' (x.map f))
    (start : ∀ i c, f (P.start i c) = Q.start i c)
    (next : ∀ s i t a r, P.next s i t a = some r →
      ∃ b, Q.next s i (f t) b = some (r.1, f r.2.1, r.2.2.map f))
    (hG : ∀ x m, G' x m) {x : Config S T} (hx : P.Reach I G x) : Q.Reach I' G' (x.map f) := by
  induction hx with
  | init hx => exact .init (init _ hx)
  | @move x y m _ _ hf ih =>
      cases m with
      | call c =>
          have hy : Q.fire (x.map f) (.call c) = some (y.map f) := by
            simp only [fire, Option.some.injEq] at hf ⊢
            subst hf
            simp [entered, Config.map, start]
          exact .move (.call c) ih (hG _ _) hy
      | step i a =>
          obtain ⟨t, r, ht, hr, rfl⟩ := P.fire_step hf
          obtain ⟨b, hb⟩ := next _ _ _ _ _ hr
          have ht' : (x.map f).threads[i]? = some (f t) := by
            simp only [Config.map, List.getElem?_map, ht, Option.map_some]
          rw [Config.map_after]
          exact ih.step (hG _ _) ht' hb

/-- Where each step of a thread is one of `P` seen through `f`, so is each move. -/
theorem fire_mapShared {S' : Type} {Q : Program S' T C A} {f : S → S'}
    (start : ∀ i c, Q.start i c = P.start i c) {x : Config S T}
    (next : ∀ i t a, Q.next (f x.shared) i t a =
      (P.next x.shared i t a).map fun r => (f r.1, r.2)) (m : Move C A) :
    Q.fire (x.mapShared f) m = (P.fire x m).map (Config.mapShared f) := by
  cases m with
  | call c => simp only [fire, entered, Config.mapShared, start, Option.map_some]
  | step i a =>
      simp only [fire, Config.mapShared]
      cases x.threads[i]? with
      | none => rfl
      | some t =>
          simp only [next, Option.map_map]
          rfl

/-- The configuration after some moves, each of which has to meet the guard. -/
def run (P : Program S T C A) (G : Config S T → Move C A → Prop) [∀ x m, Decidable (G x m)] :
    Config S T → List (Move C A) → Option (Config S T)
  | x, [] => some x
  | x, m :: ms => if G x m then (P.fire x m).bind fun y => run P G y ms else none

theorem Reach.run [∀ x m, Decidable (G x m)] {x y : Config S T} {ms : List (Move C A)}
    (hx : P.Reach I G x) (h : P.run G x ms = some y) : P.Reach I G y := by
  induction ms generalizing x with
  | nil => exact Option.some.inj h ▸ hx
  | cons m ms ih =>
      simp only [Program.run] at h
      split_ifs at h with hg
      obtain ⟨z, hz, hy⟩ := Option.bind_eq_some_iff.mp h
      exact ih (.move m hx hg hz) hy

/-- Thread `i` takes some steps by itself: what it leaves of the shared state, its own
state and the threads that it started. -/
def solo (P : Program S T C A) (i : ℕ) : S → T → List A → Option (S × T × List T)
  | s, t, [] => some (s, t, [])
  | s, t, a :: as =>
      (P.next s i t a).bind fun r =>
        (solo P i r.1 r.2.1 as).map fun r' => (r'.1, r'.2.1, r.2.2 ++ r'.2.2)

theorem solo_nil (P : Program S T C A) (i : ℕ) (s : S) (t : T) :
    P.solo i s t [] = some (s, t, []) := rfl

theorem solo_cons {P : Program S T C A} {i : ℕ} {s s₁ s₂ : S} {t t₁ t₂ : T} {a : A} {as : List A}
    {new new' : List T} (h : P.next s i t a = some (s₁, t₁, new))
    (h' : P.solo i s₁ t₁ as = some (s₂, t₂, new')) :
    P.solo i s t (a :: as) = some (s₂, t₂, new ++ new') := by
  simp only [solo, h, Option.bind_some, h', Option.map_some]

theorem solo_append {P : Program S T C A} {i : ℕ} {s s₁ s₂ : S} {t t₁ t₂ : T} {as bs : List A}
    {new new' : List T} (h : P.solo i s t as = some (s₁, t₁, new))
    (h' : P.solo i s₁ t₁ bs = some (s₂, t₂, new')) :
    P.solo i s t (as ++ bs) = some (s₂, t₂, new ++ new') := by
  induction as generalizing s t new with
  | nil =>
      cases h
      exact h'
  | cons a as ih =>
      obtain ⟨r₁, hr₁, h⟩ := Option.bind_eq_some_iff.mp h
      obtain ⟨r₂, hr₂, heq⟩ := Option.map_eq_some_iff.mp h
      obtain ⟨rfl, rfl, rfl⟩ := heq
      rw [List.append_assoc]
      exact solo_cons hr₁ (ih hr₂)

theorem Reach.solo {x : Config S T} {i : ℕ} {as : List A} {t : T} {r : S × T × List T}
    (hx : P.Reach I G x) (hG : ∀ x m, G x m) (ht : x.threads[i]? = some t)
    (h : P.solo i x.shared t as = some r) : P.Reach I G (x.after i r) := by
  induction as generalizing x t r with
  | nil =>
      cases h
      rw [Config.after_self ht]
      exact hx
  | cons a as ih =>
      obtain ⟨r₁, hr₁, h⟩ := Option.bind_eq_some_iff.mp h
      obtain ⟨r₂, hr₂, rfl⟩ := Option.map_eq_some_iff.mp h
      have hy := hx.step (hG _ _) ht hr₁
      have hz := ih hy (Config.getElem?_after_self ht) hr₂
      rwa [Config.after_after ht] at hz

/-- A call comes in and its thread takes some steps by itself. -/
theorem Reach.call_solo {x : Config S T} {c : C} {as : List A} {r : S × T × List T}
    (hx : P.Reach I G x) (hG : ∀ x m, G x m)
    (h : P.solo x.threads.length x.shared (P.start x.threads.length c) as = some r) :
    P.Reach I G ⟨r.1, x.threads ++ r.2.1 :: r.2.2⟩ := by
  have hy : P.Reach I G (P.entered x c) := .move (.call c) hx (hG _ _) rfl
  have ht : (P.entered x c).threads[x.threads.length]? = some (P.start x.threads.length c) :=
    List.getElem?_concat_length
  have hz := hy.solo hG ht h
  simpa [Config.after, entered] using hz

/-- A computed run shows that a configuration of a given kind is reached. -/
theorem Reach.exists_of_run [∀ x m, Decidable (G x m)] {x : Config S T} {m : List (Move C A)}
    {φ : Config S T → Bool} (hx : I x) (h : (P.run G x m).any φ = true) :
    ∃ y, P.Reach I G y ∧ φ y = true := by
  cases hr : P.run G x m with
  | none => simp [hr] at h
  | some y => exact ⟨y, Reach.run (.init hx) hr, by simpa [hr] using h⟩

/-- The local form of an invariant: initial configurations, calls and the step
of one thread. Earlier invariants come in through reachability. -/
theorem Reach.invariant {J : Config S T → Prop} (init : ∀ x, I x → J x)
    (call : ∀ x c, P.Reach I G x → J x → G x (.call c) → J (P.entered x c))
    (step : ∀ x i a t r, P.Reach I G x → J x → G x (.step i a) → x.threads[i]? = some t →
      P.next x.shared i t a = some r → J (x.after i r))
    {x : Config S T} (h : P.Reach I G x) : J x := by
  induction h with
  | init hx => exact init _ hx
  | @move x y m hx hg hf ih =>
      cases m with
      | call c =>
          simp only [fire, Option.some.injEq] at hf
          exact hf ▸ call x c hx ih hg
      | step i a =>
          obtain ⟨t, r, ht, hr, rfl⟩ := P.fire_step hf
          exact step x i a t r hx ih hg ht hr

/-- A property of the shared state with one of each thread, at its position,
against the shared state. A step has to restore it for the shared state, for the
stepping thread, for the threads it starts and for all the others. -/
theorem Reach.invariant_threads {J : S → Prop} {φ : S → ℕ → T → Prop}
    (init : ∀ x, I x → J x.shared ∧ ∀ i t, x.threads[i]? = some t → φ x.shared i t)
    (call : ∀ x c, P.Reach I G x → J x.shared → G x (.call c) →
      φ x.shared x.threads.length (P.start x.threads.length c))
    (step : ∀ x i a t r, P.Reach I G x → J x.shared →
      (∀ j u, x.threads[j]? = some u → φ x.shared j u) →
      G x (.step i a) → x.threads[i]? = some t → P.next x.shared i t a = some r →
      J r.1 ∧ φ r.1 i r.2.1 ∧ (∀ u ∈ r.2.2, ∀ j, x.threads.length ≤ j → φ r.1 j u) ∧
        ∀ j u, j ≠ i → x.threads[j]? = some u → φ r.1 j u)
    {x : Config S T} (h : P.Reach I G x) :
    J x.shared ∧ ∀ i t, x.threads[i]? = some t → φ x.shared i t := by
  refine Reach.invariant
    (J := fun x => J x.shared ∧ ∀ i t, x.threads[i]? = some t → φ x.shared i t) init ?_ ?_ h
  · intro x c hr hx hg
    refine ⟨hx.1, fun j u hu => ?_⟩
    rcases getElem?_concat_cases hu with hu | ⟨rfl, rfl⟩
    · exact hx.2 j u hu
    · exact call x c hr hx.1 hg
  · intro x k a u r hr hx hg hk hn
    obtain ⟨hJ, hself, hnew, hother⟩ := step x k a u r hr hx.1 hx.2 hg hk hn
    refine ⟨hJ, fun j v hv => ?_⟩
    rcases Config.getElem?_after hk hv with ⟨rfl, rfl⟩ | ⟨hj, hv⟩ | ⟨hj, hv⟩
    · exact hself
    · exact hother j v hj hv
    · exact hnew v hv j hj

end Program

/-- A quantity split between the shared state and the threads. -/
structure Ledger (S T : Type) where
  held : S → ℤ
  carried : T → ℤ

namespace Ledger

def balance (L : Ledger S T) (x : Config S T) : ℤ := L.held x.shared + total L.carried x.threads

theorem balance_entered (L : Ledger S T) (P : Program S T C A) (x : Config S T) (c : C) :
    L.balance (P.entered x c) = L.balance x + L.carried (P.start x.threads.length c) := by
  simp only [balance, Program.entered, total_append, total_cons, total_nil]
  omega

theorem balance_after (L : Ledger S T) {x : Config S T} {i : ℕ} {t : T}
    (h : x.threads[i]? = some t) (r : S × T × List T) :
    L.balance (x.after i r) + (L.held x.shared + L.carried t) =
      L.balance x + (L.held r.1 + L.carried r.2.1 + total L.carried r.2.2) := by
  have htot := Config.total_after L.carried h r
  simp only [balance, Config.after] at htot ⊢
  omega

/-- No call brings anything in and no local step changes the sum. The local
steps need only be checked where the side condition `V` holds. -/
structure Kept (L : Ledger S T) (P : Program S T C A) (V : S → T → Prop) : Prop where
  start : ∀ i c, L.carried (P.start i c) = 0
  next : ∀ s i t a r, V s t → P.next s i t a = some r →
    L.held r.1 + L.carried r.2.1 + total L.carried r.2.2 = L.held s + L.carried t

variable {P : Program S T C A} {I : Config S T → Prop} {G : Config S T → Move C A → Prop}

/-- A kept ledger has the same balance in every interleaving. The side condition
may be read off the balance itself. -/
theorem Kept.balance_eq {L : Ledger S T} {V : S → T → Prop} (h : L.Kept P V) {k : ℤ}
    (hV : ∀ x, P.Reach I G x → L.balance x = k → ∀ t ∈ x.threads, V x.shared t)
    (init : ∀ x, I x → L.balance x = k) {x : Config S T} (hx : P.Reach I G x) :
    L.balance x = k := by
  refine Program.Reach.invariant (J := fun x => L.balance x = k) init ?_ ?_ hx
  · intro x c _ hk _
    rw [L.balance_entered, h.start, hk, add_zero]
  · intro x i a t r hr hk _ ht hn
    have hloc := h.next x.shared i t a r (hV x hr hk t (List.mem_of_getElem? ht)) hn
    have hafter := L.balance_after ht r
    omega

/-- A balance that no call and no guarded local step raises stays below its bound. -/
theorem balance_le {L : Ledger S T} {k : ℤ} (init : ∀ x, I x → L.balance x ≤ k)
    (call : ∀ i c, L.carried (P.start i c) ≤ 0)
    (step : ∀ x i t a r, P.Reach I G x → L.balance x ≤ k → G x (.step i a) →
      x.threads[i]? = some t → P.next x.shared i t a = some r →
      L.held r.1 + L.carried r.2.1 + total L.carried r.2.2 ≤ L.held x.shared + L.carried t)
    {x : Config S T} (hx : P.Reach I G x) : L.balance x ≤ k := by
  refine Program.Reach.invariant (J := fun x => L.balance x ≤ k) init ?_ ?_ hx
  · intro x c _ hk _
    have hstart := call x.threads.length c
    simp only [balance, Program.entered, total_append, total_cons, total_nil] at hk ⊢
    omega
  · intro x i a t r hr hk hg ht hn
    have hloc := step x i t a r hr hk hg ht hn
    have htot := Config.total_after L.carried ht r
    simp only [balance, Config.after] at hk htot ⊢
    omega

/-- The ledger in which every thread that satisfies `p` accounts for one unit. -/
def counting (held : S → ℤ) (p : T → Bool) : Ledger S T where
  held := held
  carried t := if p t then -1 else 0

private theorem counting_balance (held : S → ℤ) (p : T → Bool) (x : Config S T) :
    (counting held p).balance x = held x.shared - x.threads.countP p := by
  have hneg : (counting held p).carried = fun t => -(if p t then 1 else 0) := by
    funext t
    simp only [counting]
    split <;> rfl
  rw [balance, hneg, total_neg, total_indicator]
  exact (sub_eq_add_neg _ _).symm

/-- A kept counting ledger counts the threads that satisfy `p`, in every
interleaving that starts without any. -/
theorem Kept.count_eq {held : S → ℤ} {p : T → Bool} {V : S → T → Prop}
    (h : (counting held p).Kept P V)
    (hV : ∀ x, P.Reach I G x → held x.shared = x.threads.countP p →
      ∀ t ∈ x.threads, V x.shared t)
    (init : ∀ x, I x → held x.shared = 0 ∧ ∀ t ∈ x.threads, p t = false) {x : Config S T}
    (hx : P.Reach I G x) : held x.shared = x.threads.countP p := by
  have hbal : (counting held p).balance x = 0 := by
    refine h.balance_eq ?_ ?_ hx
    · intro y hy hk
      rw [counting_balance] at hk
      exact hV y hy (by omega)
    · intro y hy
      obtain ⟨hheld, hthreads⟩ := init y hy
      rw [counting_balance, hheld, List.countP_eq_zero.mpr fun t ht => by simp [hthreads t ht]]
      rfl
  rw [counting_balance] at hbal
  omega

end Ledger

end AntsPool.Interleaving
