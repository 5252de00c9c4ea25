import AntsPool.Executor

/-!
# Several executors as one

Each job has at most one place, a job of one of the executors, and no two jobs share one.
Then the executors are one executor of the jobs, whose limit is the sum of theirs: a step
of one of them is a step of the whole, or of no job that is placed.
-/
namespace AntsPool.Executor
variable {J K : Type*}

attribute [ext] Executor

/-- The phase of the job at a place. -/
def phaseAt (members : List (Executor K)) : Option (ℕ × K) → Phase
  | none => .absent
  | some (k, i) => members[k]?.elim .absent fun e => e.phase i

def pooled (members : List (Executor K)) (place : J → Option (ℕ × K)) : Executor J :=
  ⟨fun j => phaseAt members (place j), (members.map limit).sum⟩

/-- No two jobs have the same place. -/
def Apart (place : J → Option (ℕ × K)) : Prop :=
  ∀ a b p, place a = some p → place b = some p → a = b

/-- Jobs that are placed at running ones are no more than those may be. -/
theorem encard_le_sum {R : Set J} {members : List (Executor K)} (hw : ∀ e ∈ members, e.Within)
    {p : J → ℕ × K} (inj : Set.InjOn p R)
    (running : ∀ j ∈ R, ∃ e, members[(p j).1]? = some e ∧ (p j).2 ∈ e.runningJobs) :
    R.encard ≤ (members.map limit).sum := by
  induction members generalizing R p with
  | nil =>
      have hempty : R = ∅ := Set.eq_empty_of_forall_notMem fun j hj => by
        obtain ⟨e, he, _⟩ := running j hj
        cases he
      rw [hempty, Set.encard_empty]
      exact zero_le
  | cons e members ih =>
      -- those of the first executor, and the others
      have hfirst : {j ∈ R | (p j).1 = 0}.encard ≤ e.limit := by
        refine le_trans (Set.encard_le_encard_of_injOn (f := fun j => (p j).2) ?_ ?_)
          (hw e List.mem_cons_self)
        · rintro j ⟨hj, h0⟩
          obtain ⟨d, hd, hrun⟩ := running j hj
          rw [h0] at hd
          cases hd
          exact hrun
        · rintro a ⟨ha, ha0⟩ b ⟨hb, hb0⟩ hab
          exact inj ha hb (Prod.ext (ha0.trans hb0.symm) hab)
      have hrest : {j ∈ R | (p j).1 ≠ 0}.encard ≤ (members.map limit).sum := by
        refine ih (p := fun j => ((p j).1 - 1, (p j).2))
          (fun d hd => hw d (List.mem_cons_of_mem _ hd)) ?_ ?_
        · rintro a ⟨ha, ha0⟩ b ⟨hb, hb0⟩ hab
          obtain ⟨h1, h2⟩ := Prod.mk.inj hab
          exact inj ha hb (Prod.ext (by omega) h2)
        · rintro j ⟨hj, h0⟩
          obtain ⟨d, hd, hrun⟩ := running j hj
          obtain ⟨k, hk⟩ := Nat.exists_eq_succ_of_ne_zero h0
          rw [hk, List.getElem?_cons_succ] at hd
          exact ⟨d, by rw [hk]; exact hd, hrun⟩
      rw [List.map_cons, List.sum_cons]
      calc R.encard
          ≤ ({j ∈ R | (p j).1 = 0} ∪ {j ∈ R | (p j).1 ≠ 0}).encard :=
            Set.encard_le_encard fun j hj => (em ((p j).1 = 0)).imp (⟨hj, ·⟩) (⟨hj, ·⟩)
        _ ≤ {j ∈ R | (p j).1 = 0}.encard + {j ∈ R | (p j).1 ≠ 0}.encard :=
            Set.encard_union_le _ _
        _ ≤ e.limit + (members.map limit).sum := add_le_add hfirst hrest

variable {members : List (Executor K)} {place : J → Option (ℕ × K)}

theorem pooled_within (hp : Apart place) (hw : ∀ e ∈ members, e.Within) :
    (pooled members place).Within := by
  have hplaced : ∀ j ∈ (pooled members place).runningJobs, ∃ q e, place j = some q ∧
      members[q.1]? = some e ∧ q.2 ∈ e.runningJobs := by
    intro j hj
    have hphase : phaseAt members (place j) = .running := hj
    cases hq : place j with
    | none =>
        rw [hq] at hphase
        cases hphase
    | some q =>
        obtain ⟨k, i⟩ := q
        rw [hq, phaseAt] at hphase
        cases he : members[k]? with
        | none =>
            rw [he] at hphase
            cases hphase
        | some e =>
            rw [he] at hphase
            exact ⟨(k, i), e, rfl, he, hphase⟩
  rcases isEmpty_or_nonempty K with hK | ⟨⟨d⟩⟩
  · have hempty : (pooled members place).runningJobs = ∅ :=
      Set.eq_empty_of_forall_notMem fun j hj => by
        obtain ⟨q, _⟩ := hplaced j hj
        exact hK.elim q.2
    rw [Within, hempty, Set.encard_empty]
    exact zero_le
  · refine encard_le_sum (p := fun j => (place j).getD (0, d)) hw ?_ fun j hj => ?_
    · intro a ha b hb hab
      obtain ⟨q, _, hq, _⟩ := hplaced a ha
      obtain ⟨r, _, hr, _⟩ := hplaced b hb
      simp only [hq, hr, Option.getD_some] at hab
      exact hp a b q hq (hab ▸ hr)
    · obtain ⟨q, e, hq, he, hrun⟩ := hplaced j hj
      exact ⟨e, by simp only [hq, Option.getD_some]; exact ⟨he, hrun⟩⟩

/-! ## Steps -/

/-- Jobs that move between places of one phase show nothing. -/
theorem pooled_congr {place' : J → Option (ℕ × K)} {members' : List (Executor K)}
    (hl : members'.map limit = members.map limit)
    (h : ∀ j, phaseAt members' (place' j) = phaseAt members (place j)) :
    pooled members' place' = pooled members place :=
  Executor.ext (funext h) (congrArg List.sum hl)

theorem sum_limit_set {k : ℕ} {e : Executor K} (hk : members[k]? = some e) {e' : Executor K}
    (hl : e.limit ≤ e'.limit) :
    (members.map limit).sum ≤ ((members.set k e').map limit).sum := by
  induction members generalizing k with
  | nil => cases hk
  | cons d members ih =>
      cases k with
      | zero =>
          cases hk
          simp only [List.set_cons_zero, List.map_cons, List.sum_cons]
          exact add_le_add_left hl _
      | succ k =>
          simp only [List.set_cons_succ, List.map_cons, List.sum_cons]
          exact add_le_add_right (ih hk) _

theorem map_limit_set {k : ℕ} {e e' : Executor K} (hk : members[k]? = some e)
    (hl : e'.limit = e.limit) : (members.set k e').map limit = members.map limit := by
  rw [List.map_set, hl]
  have hmap : (members.map limit)[k]? = some e.limit := by
    rw [List.getElem?_map, hk, Option.map_some]
  obtain ⟨hlt, heq⟩ := List.getElem?_eq_some_iff.mp hmap
  rw [← heq, List.set_getElem_self]

theorem phaseAt_raise {k : ℕ} {e : Executor K} (hk : members[k]? = some e) (l : ℕ∞)
    (r : Option (ℕ × K)) :
    phaseAt (members.set k { e with limit := l }) r = phaseAt members r := by
  cases r with
  | none => rfl
  | some r =>
      obtain ⟨m, i⟩ := r
      simp only [phaseAt]
      rcases eq_or_ne k m with rfl | hne
      · rw [List.getElem?_set_self (List.getElem?_eq_some_iff.mp hk).1, hk]
        rfl
      · rw [List.getElem?_set_ne hne]

variable [DecidableEq K]

theorem phaseAt_move {k : ℕ} {e : Executor K} (hk : members[k]? = some e) (i : K) (q : Phase)
    (r : Option (ℕ × K)) :
    phaseAt (members.set k (e.move i q)) r = if r = some (k, i) then q else phaseAt members r := by
  cases r with
  | none => rfl
  | some r =>
      obtain ⟨m, n⟩ := r
      simp only [phaseAt, Option.some.injEq, Prod.mk.injEq]
      rcases eq_or_ne k m with rfl | hne
      · rw [List.getElem?_set_self (List.getElem?_eq_some_iff.mp hk).1, Option.elim_some,
          phase_move, hk, Option.elim_some]
        simp only [true_and]
      · rw [List.getElem?_set_ne hne, if_neg fun h => hne h.1.symm]

variable [DecidableEq J]

/-- A job of an executor that moves is in a place, or shows nothing. -/
theorem pooled_move {k : ℕ} {e : Executor K} (hp : Apart place) (hk : members[k]? = some e)
    (i : K) (q : Phase) :
    (∃ j, (pooled members place).phase j = e.phase i ∧
      pooled (members.set k (e.move i q)) place = (pooled members place).move j q) ∨
    pooled (members.set k (e.move i q)) place = pooled members place := by
  have hlimit : (members.set k (e.move i q)).map limit = members.map limit :=
    map_limit_set hk rfl
  by_cases hj : ∃ j, place j = some (k, i)
  · obtain ⟨j, hj⟩ := hj
    refine .inl ⟨j, ?_, ?_⟩
    · simp only [pooled, hj, phaseAt, hk, Option.elim_some]
    · have hphase : (pooled (members.set k (e.move i q)) place).phase =
          Function.update (pooled members place).phase j q := by
        funext a
        rw [Function.update_apply]
        refine (phaseAt_move hk i q (place a)).trans ?_
        by_cases ha : a = j
        · rw [if_pos (ha ▸ hj), if_pos ha]
        · rw [if_neg fun h => ha (hp a j _ h hj), if_neg ha]
          rfl
      exact Executor.ext hphase (congrArg List.sum hlimit)
  · refine .inr (Executor.ext (funext fun a => ?_) (congrArg List.sum hlimit))
    exact (phaseAt_move hk i q (place a)).trans (if_neg fun h => hj ⟨a, h⟩)

/-- A step of one executor is a step of the whole, or shows nothing. -/
theorem Step.pooled {k : ℕ} {e e' : Executor K} (h : Step e e') (hp : Apart place)
    (hk : members[k]? = some e) (hw : ∀ d ∈ members.set k e', d.Within) :
    Relation.ReflGen Step (Executor.pooled members place)
      (Executor.pooled (members.set k e') place) := by
  have hwithin := pooled_within hp hw
  cases h with
  | @accept i hi =>
      rcases pooled_move hp hk i .waiting with ⟨j, hj, heq⟩ | heq
      · rw [heq]
        exact .single (.accept (hj.trans hi))
      · rw [heq]
  | @begin i hi _ =>
      rcases pooled_move hp hk i .running with ⟨j, hj, heq⟩ | heq
      · rw [heq] at hwithin ⊢
        exact .single (.begin (hj.trans hi) hwithin)
      · rw [heq]
  | @finish i hi =>
      rcases pooled_move hp hk i .done with ⟨j, hj, heq⟩ | heq
      · rw [heq]
        exact .single (.finish (hj.trans hi))
      · rw [heq]
  | @raise l hl =>
      have heq : Executor.pooled (members.set k { e with limit := l }) place =
          { Executor.pooled members place with
            limit := ((members.set k { e with limit := l }).map limit).sum } := by
        simp only [Executor.pooled, phaseAt_raise hk]
      rw [heq]
      exact .single (.raise (sum_limit_set hk hl))

end AntsPool.Executor
