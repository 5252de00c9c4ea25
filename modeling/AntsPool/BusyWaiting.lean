import AntsPool.Traces

/-!
# Waiting for a lock in a loop

In a program that blocks, a thread that waits for a lock has no step while the lock is
held. In the one that spins it goes round a loop instead, tests the lock now and then,
and goes on at a test that finds the lock free. With the loops erased both have the same
runs, under any guard of the first.
-/
namespace AntsPool.Interleaving

/-- The state of a waiting loop: whether it is at a test of the lock, and where the next
turn leads, a failed test or a pause. -/
structure Loop (W : Type) where
  start : W
  tests : W → Bool
  turn : W → W

/-- A thread with the state of its loop. -/
structure Looping (T W : Type) where
  thread : T
  loop : W
deriving DecidableEq

variable {S T C A W : Type}

section
variable (P : Program S T C A) (Z : Loop W) (locked : S → Bool) (waits : T → Bool)

/-- The next step is a turn: a pause, or a test that finds the lock held. -/
def Loop.turns (s : S) (u : Looping T W) : Bool :=
  waits u.thread && (!Z.tests u.loop || locked s)

/-- A thread out of its loop; the next one starts anew. -/
def Loop.fresh (t : T) : Looping T W := ⟨t, Z.start⟩

/-- `P`, with the threads that wait for the lock in the loop `Z`. -/
def Program.spinning : Program S (Looping T W) C A where
  start i c := Z.fresh (P.start i c)
  next s i u a :=
    if Z.turns locked waits s u then some (s, ⟨u.thread, Z.turn u.loop⟩, [])
    else (P.next s i u.thread a).map fun r => (r.1, Z.fresh r.2.1, r.2.2.map Z.fresh)

/-- Nobody has gone round a loop yet. -/
def Loop.Starts (I : Config S T → Prop) (y : Config S (Looping T W)) : Prop :=
  ∃ x, I x ∧ y = x.map Z.fresh

/-- The guard `G` of the program that blocks; turns are always allowed. -/
def Loop.guard (G : Config S T → Move C A → Prop) (x : Config S (Looping T W)) :
    Move C A → Prop
  | .call c => G (x.map Looping.thread) (.call c)
  | .step i a => (∃ u ∈ x.threads[i]?, Z.turns locked waits x.shared u = true) ∨
      G (x.map Looping.thread) (.step i a)

instance (G : Config S T → Move C A → Prop) [∀ x m, Decidable (G x m)]
    (x : Config S (Looping T W)) : (m : Move C A) → Decidable (Z.guard locked waits G x m)
  | .call c => inferInstanceAs (Decidable (G (x.map Looping.thread) (.call c)))
  | .step i a => inferInstanceAs (Decidable ((∃ u ∈ x.threads[i]?,
      Z.turns locked waits x.shared u = true) ∨ G (x.map Looping.thread) (.step i a)))

end

namespace Program
variable {P : Program S T C A} {Z : Loop W} {locked : S → Bool} {waits : T → Bool}
  {I : Config S T → Prop} {G : Config S T → Move C A → Prop}
  {x : Config S (Looping T W)}

/-- A step of the spinning program is a turn or a step of `P`. -/
theorem spinning_step {s : S} {i : ℕ} {u : Looping T W} {a : A}
    {q : S × Looping T W × List (Looping T W)}
    (h : (P.spinning Z locked waits).next s i u a = some q) :
    (Z.turns locked waits s u = true ∧ q = (s, ⟨u.thread, Z.turn u.loop⟩, [])) ∨
      Z.turns locked waits s u = false ∧ ∃ r, P.next s i u.thread a = some r ∧
        q = (r.1, Z.fresh r.2.1, r.2.2.map Z.fresh) := by
  simp only [spinning] at h
  split_ifs at h with ht
  · exact .inl ⟨ht, (Option.some.inj h).symm⟩
  · obtain ⟨r, hr, rfl⟩ := Option.map_eq_some_iff.mp h
    exact .inr ⟨Bool.of_not_eq_true ht, r, hr, rfl⟩

theorem spinning_next {s : S} {i : ℕ} {u : Looping T W} {a : A} {r : S × T × List T}
    (ht : Z.turns locked waits s u = false) (hr : P.next s i u.thread a = some r) :
    (P.spinning Z locked waits).next s i u a =
      some (r.1, Z.fresh r.2.1, r.2.2.map Z.fresh) := by
  simp only [spinning, ht, hr, Bool.false_eq_true, if_false, Option.map_some]

/-- A turn shows nothing. -/
theorem map_turn {i : ℕ} {u : Looping T W} (hi : x.threads[i]? = some u) (w : W) :
    (x.after i (x.shared, ⟨u.thread, w⟩, [])).map Looping.thread = x.map Looping.thread := by
  rw [Config.map_after]
  have hset : (x.map Looping.thread).threads.set i u.thread = (x.map Looping.thread).threads := by
    have hmap : (x.map Looping.thread).threads[i]? = some u.thread := by
      rw [Config.map, List.getElem?_map, hi, Option.map_some]
    obtain ⟨hlt, heq⟩ := List.getElem?_eq_some_iff.mp hmap
    rw [← heq, List.set_getElem_self]
  simp only [Config.after, List.map_nil, List.append_nil, hset]
  rfl

theorem map_fresh (l : List T) : (l.map Z.fresh).map Looping.thread = l := by
  rw [List.map_map]
  exact List.map_id l

theorem erase_fresh (x : Config S T) : (x.map Z.fresh).map Looping.thread = x := by
  simp only [Config.map, map_fresh]

theorem map_step (i : ℕ) (r : S × T × List T) :
    (x.after i (r.1, Z.fresh r.2.1, r.2.2.map Z.fresh)).map Looping.thread =
      (x.map Looping.thread).after i r := by
  rw [Config.map_after, map_fresh]
  rfl

theorem map_entered (c : C) :
    ((P.spinning Z locked waits).entered x c).map Looping.thread =
      P.entered (x.map Looping.thread) c := by
  simp only [entered, Config.map, List.map_append, List.map_cons, List.map_nil, List.length_map]
  rfl

/-- Erasing the loops. -/
theorem Reach.erase
    (hx : (P.spinning Z locked waits).Reach (Z.Starts I) (Z.guard locked waits G) x) :
    P.Reach I G (x.map Looping.thread) := by
  induction hx with
  | init hx =>
      obtain ⟨x, hx, rfl⟩ := hx
      rw [erase_fresh]
      exact .init hx
  | @move x y m hx hg hf ih =>
      cases m with
      | call c =>
          cases hf
          rw [map_entered]
          exact .move (.call c) ih hg rfl
      | step i a =>
          obtain ⟨u, q, hu, hq, rfl⟩ := fire_step _ hf
          have hmap : (x.map Looping.thread).threads[i]? = some u.thread := by
            rw [Config.map, List.getElem?_map, hu, Option.map_some]
          rcases spinning_step hq with ⟨_, rfl⟩ | ⟨ht, r, hr, rfl⟩
          · rw [map_turn hu]
            exact ih
          · rw [map_step]
            refine ih.step ?_ hmap hr
            rcases hg with ⟨v, hv, hturn⟩ | hg
            · cases hu.symm.trans hv
              exact (Bool.false_ne_true (ht.symm.trans hturn)).elim
            · exact hg

/-- Where a thread that waits is blocked while the lock is held, every run is one of the
spinning program, in which each first test finds the lock free. -/
theorem Reach.spin (first : Z.tests Z.start = true)
    (blocked : ∀ s i t a, waits t = true → locked s = true → P.next s i t a = none)
    {x : Config S T} (hx : P.Reach I G x) :
    (P.spinning Z locked waits).Reach (Z.Starts I) (Z.guard locked waits G) (x.map Z.fresh) := by
  induction hx with
  | init hx => exact .init ⟨_, hx, rfl⟩
  | @move x y m hx hg hf ih =>
      cases m with
      | call c =>
          cases hf
          refine .move (.call c) ih ?_ ?_
          · rw [Loop.guard, erase_fresh]
            exact hg
          · simp only [fire, entered, Config.map, spinning, List.map_append, List.map_cons,
              List.map_nil, List.length_map]
      | step i a =>
          obtain ⟨t, r, ht, hr, rfl⟩ := fire_step _ hf
          have hmap : (x.map Z.fresh).threads[i]? = some (Z.fresh t) := by
            rw [Config.map, List.getElem?_map, ht, Option.map_some]
          have hturn : Z.turns locked waits x.shared (Z.fresh t) = false := by
            rw [Loop.turns, Loop.fresh, first]
            cases hw : waits t with
            | false => rfl
            | true =>
                cases hl : locked x.shared with
                | false => rfl
                | true => cases (blocked _ i t a hw hl).symm.trans hr
          rw [Config.map_after]
          refine ih.step (a := a) (.inr ?_) hmap (spinning_next hturn hr)
          rw [erase_fresh]
          exact hg

/-- The reachable configurations are those of the program that blocks. -/
theorem reach_iff_spinning (first : Z.tests Z.start = true)
    (blocked : ∀ s i t a, waits t = true → locked s = true → P.next s i t a = none)
    {x : Config S T} :
    P.Reach I G x ↔ ∃ y, (P.spinning Z locked waits).Reach (Z.Starts I) (Z.guard locked waits G) y ∧
      y.map Looping.thread = x := by
  constructor
  · exact fun hx => ⟨_, hx.spin first blocked, erase_fresh x⟩
  · rintro ⟨y, hy, rfl⟩
    exact hy.erase

/-! ## The turns of a thread -/

/-- Whether a move is a turn. -/
def isTurn (Z : Loop W) (locked : S → Bool) (waits : T → Bool)
    (e : Event S (Looping T W) C A) : Bool :=
  e.actor.any (Z.turns locked waits e.before.shared)

/-- How many turns thread `i` has made since its last other step. -/
def turnsOf (Z : Loop W) (locked : S → Bool) (waits : T → Bool) (i : ℕ) :
    List (Event S (Looping T W) C A) → ℕ
  | [] => 0
  | e :: h =>
      if e.isStepOf i then if isTurn Z locked waits e then turnsOf Z locked waits i h + 1 else 0
      else turnsOf Z locked waits i h

theorem turnsOf_of_not {e : Event S (Looping T W) C A} {i : ℕ} (he : e.isStepOf i = false)
    (h : List (Event S (Looping T W) C A)) :
    turnsOf Z locked waits i (e :: h) = turnsOf Z locked waits i h := by
  rw [turnsOf, he]
  rfl

theorem isStepOf_ne {x y : Config S (Looping T W)} {i j : ℕ} (a : A) (hij : j ≠ i) :
    (⟨x, .step i a, y⟩ : Event S (Looping T W) C A).isStepOf j = false :=
  beq_false_of_ne hij.symm

/-- A thread is in its loop where its turns have led it. -/
theorem Trace.loop_eq {h : List (Event S (Looping T W) C A)}
    {K : Config S (Looping T W) → Move C A → Prop}
    (hx : (P.spinning Z locked waits).Trace (Z.Starts I) K h x) {i : ℕ} {u : Looping T W}
    (hi : x.threads[i]? = some u) : u.loop = Z.turn^[turnsOf Z locked waits i h] Z.start := by
  have hall := Trace.invariant (J := fun h x =>
    (∀ i, x.threads.length ≤ i → turnsOf Z locked waits i h = 0) ∧
    ∀ i u, x.threads[i]? = some u → u.loop = Z.turn^[turnsOf Z locked waits i h] Z.start)
    ?_ ?_ ?_ hx
  · exact hall.2 i u hi
  · rintro y ⟨x, _, rfl⟩
    refine ⟨fun _ _ => rfl, fun i u hu => ?_⟩
    obtain ⟨t, _, rfl⟩ := List.mem_map.mp (List.mem_of_getElem? hu)
    rfl
  · intro h y c _ ⟨hnone, hsome⟩ _
    constructor
    · intro j hj
      simp only [entered, List.length_append, List.length_singleton] at hj
      rw [turnsOf_of_not rfl]
      exact hnone j (by omega)
    · intro j v hv
      rw [turnsOf_of_not rfl]
      rcases getElem?_concat_cases hv with hv | ⟨rfl, rfl⟩
      · exact hsome j v hv
      · rw [hnone _ le_rfl]
        rfl
  · intro h y j a v q _ ⟨hnone, hsome⟩ _ hv hq
    have hj := (List.getElem?_eq_some_iff.mp hv).1
    constructor
    · intro k hk
      have hle := y.length_le_after j q
      rw [turnsOf_of_not (isStepOf_ne a (by omega))]
      exact hnone k (by omega)
    · intro k w hw
      rcases Config.getElem?_after hv hw with ⟨rfl, rfl⟩ | ⟨hk, hw⟩ | ⟨hk, hw⟩
      · have hself : (⟨y, .step k a, y.after k q⟩ : Event S (Looping T W) C A).isStepOf k = true :=
          beq_self_eq_true k
        have hturn : isTurn Z locked waits (⟨y, .step k a, y.after k q⟩ : Event _ _ C A) =
            Z.turns locked waits y.shared v := by
          have hactor : (⟨y, .step k a, y.after k q⟩ : Event _ _ C A).actor = some v := hv
          rw [isTurn, hactor, Option.any_some]
        rw [turnsOf, if_pos hself, hturn]
        rcases spinning_step hq with ⟨ht, rfl⟩ | ⟨ht, r, _, rfl⟩
        · rw [if_pos ht, Function.iterate_succ_apply', ← hsome k v hv]
        · rw [ht]
          rfl
      · rw [turnsOf_of_not (isStepOf_ne a hk)]
        exact hsome k w hw
      · rw [turnsOf_of_not (isStepOf_ne a (by omega)), hnone k hk]
        rcases spinning_step hq with ⟨_, rfl⟩ | ⟨_, r, _, rfl⟩
        · cases hw
        · obtain ⟨t, _, rfl⟩ := List.mem_map.mp hw
          rfl

theorem run_of_not_turns {i : ℕ} {u : Looping T W} {a : A} {r : S × T × List T}
    (hi : x.threads[i]? = some u) (ht : Z.turns locked waits x.shared u = false)
    (hr : P.next x.shared i u.thread a = some r) :
    (P.spinning Z locked waits).run (fun _ _ => True) x [.step i a] =
      some (x.after i (r.1, Z.fresh r.2.1, r.2.2.map Z.fresh)) := by
  simp only [run, fire, hi, spinning_next ht hr, if_true, Option.map_some, Option.bind_some]

/-- Alone, a thread that waits for a free lock goes on at its next test. -/
theorem run_of_free {i : ℕ} {u : Looping T W} {a : A} {r : S × T × List T}
    (hi : x.threads[i]? = some u) (hl : locked x.shared = false)
    (hr : P.next x.shared i u.thread a = some r) {n : ℕ}
    (hn : Z.tests (Z.turn^[n] u.loop) = true) :
    ∃ m ≤ n, ∃ y, (P.spinning Z locked waits).run (fun _ _ => True) x
      (List.replicate (m + 1) (.step i a)) = some y ∧
        y.map Looping.thread = (x.map Looping.thread).after i r := by
  induction n generalizing x u with
  | zero =>
      have ht : Z.turns locked waits x.shared u = false := by
        rw [Function.iterate_zero_apply] at hn
        rw [Loop.turns, hn, hl, Bool.not_true, Bool.or_false, Bool.and_false]
      exact ⟨0, le_rfl, _, run_of_not_turns hi ht hr, map_step i r⟩
  | succ n ih =>
      cases ht : Z.turns locked waits x.shared u with
      | false =>
          exact ⟨0, Nat.zero_le _, _, run_of_not_turns hi ht hr, map_step i r⟩
      | true =>
          have hturn : (P.spinning Z locked waits).next x.shared i u a =
              some (x.shared, ⟨u.thread, Z.turn u.loop⟩, []) := by
            simp only [spinning, ht, if_true]
          rw [Function.iterate_succ_apply] at hn
          obtain ⟨m, hm, y, hy, hmap⟩ := ih
            (x := x.after i (x.shared, ⟨u.thread, Z.turn u.loop⟩, []))
            (Config.getElem?_after_self hi) hl hr hn
          refine ⟨m + 1, Nat.succ_le_succ hm, y, ?_, hmap.trans ?_⟩
          · rw [List.replicate_succ, run, if_pos trivial, fire, hi]
            simpa only [hturn, Option.map_some, Option.bind_some] using hy
          · rw [map_turn hi]

end Program

end AntsPool.Interleaving
