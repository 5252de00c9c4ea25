import AntsPool.Interleaving
import Mathlib.Data.List.Basic

/-!
# A mutex and its condition variable

Data behind a mutex, and threads that sleep until the data lets them go on. A
sleeper leaves the set `asleep` when it is notified, or without a reason; it goes on
once it holds the mutex again, and then tests the data once more.

A thread that changes the data owes a notice for what it did. `need` counts the
waiters that the data lets go and that still have to take notice one at a time, and a
`stale` waiter is let go by a change for everybody. As long as every change gives the
notice it owes, no waiter that the data lets go stays asleep: the need is covered by
waiters that are awake and by notices still to be given.
-/
namespace AntsPool.Condvars
open Interleaving

structure Room (D : Type) where
  data : D
  held : Bool
  asleep : List ℕ
deriving Repr, DecidableEq

inductive Notice
  | none
  | one
  | all
deriving Repr, DecidableEq

/-- Where a thread stands. A waiter tests the data, holding the mutex, or waits on the
condition variable. -/
inductive Phase (K : Type)
  | away
  | inside
  | testing (k : K)
  | waiting (k : K)
  | notifying (n : Notice)

namespace Phase
variable {K : Type}

def holds : Phase K → Bool
  | .inside | .testing _ | .notifying _ => true
  | _ => false

def waits : Phase K → Bool
  | .waiting _ => true
  | _ => false

def registered : Phase K → Bool
  | .testing _ | .waiting _ => true
  | _ => false

def givesOne : Phase K → Bool
  | .notifying .one => true
  | _ => false

theorem waits_iff {q : Phase K} : q.waits = true ↔ ∃ k, q = .waiting k := by
  cases q <;> simp [waits]

end Phase

/-- How the threads use the data. A waiter registers with `enter`, a test finds the data
`idle` for it or it may `leave`, and `change` is all the rest, with the notice it owes. -/
structure Discipline (D K : Type) where
  enter : D → D → K → Prop
  leave : D → K → D → Prop
  idle : D → K → Prop
  change : D → D → Notice → Prop
  need : D → ℕ
  stale : D → K → Prop
  /-- The data is right about the number of registered waiters. -/
  tracks : D → ℕ → Prop
  idle_iff : ∀ {d k}, idle d k ↔ need d = 0 ∧ ¬ stale d k
  need_enter : ∀ {d d' k}, enter d d' k → need d' ≤ need d
  stale_enter : ∀ {d d' k j}, enter d d' k → stale d' j → stale d j
  tracks_enter : ∀ {d d' k n}, enter d d' k → tracks d n → tracks d' (n + 1)
  need_leave : ∀ {d d' k}, leave d k d' → need d' ≤ need d - 1
  stale_leave : ∀ {d d' k j}, leave d k d' → stale d' j → stale d j
  tracks_leave : ∀ {d d' k n}, leave d k d' → tracks d (n + 1) → tracks d' n
  tracks_change : ∀ {d d' a n}, change d d' a → tracks d n → tracks d' n
  need_none : ∀ {d d'}, change d d' .none → need d' ≤ need d
  need_one : ∀ {d d'}, change d d' .one → need d' ≤ need d + 1
  need_all : ∀ {d d'}, change d d' .all → need d' = 0
  /-- No change lets more waiters go than there are. -/
  need_change : ∀ {d d' a n}, change d d' a → tracks d n → need d ≤ n → need d' ≤ n
  stale_change : ∀ {d d' a j}, change d d' a → a ≠ .all → stale d' j → stale d j

namespace Discipline
variable {D K : Type} (M : Discipline D K)

/-- One step of thread `i`. -/
inductive Step (i : ℕ) : Room D → Phase K → Room D → Phase K → Prop
  | acquire {b} (hb : b.held = false) : Step i b .away { b with held := true } .inside
  | release {b} : Step i b .inside { b with held := false } .away
  | enter {b d k} (h : M.enter b.data d k) : Step i b .inside { b with data := d } (.testing k)
  | leave {b d k} (h : M.leave b.data k d) : Step i b (.testing k) { b with data := d } .inside
  | sleep {b k} (h : M.idle b.data k) :
      Step i b (.testing k) { b with held := false, asleep := i :: b.asleep } (.waiting k)
  | spurious {b k} : Step i b (.waiting k) { b with asleep := b.asleep.erase i } (.waiting k)
  | resume {b k} (hb : b.held = false) (hi : i ∉ b.asleep) :
      Step i b (.waiting k) { b with held := true } (.testing k)
  | change {b d n} (h : M.change b.data d n) :
      Step i b .inside { b with data := d } (.notifying n)
  | quiet {b} : Step i b (.notifying .none) b .inside
  | one {b j} (hj : j ∈ b.asleep) :
      Step i b (.notifying .one) { b with asleep := b.asleep.erase j } .inside
  | nobody {b} (hb : b.asleep = []) : Step i b (.notifying .one) b .inside
  | all {b} : Step i b (.notifying .all) { b with asleep := [] } .inside

/-- Some steps of thread `i` in a row. -/
inductive Steps (i : ℕ) : Room D → Phase K → Room D → Phase K → Prop
  | refl {b q} : Steps i b q b q
  | tail {b q b₁ q₁ b₂ q₂} : Steps i b q b₁ q₁ → M.Step i b₁ q₁ b₂ q₂ → Steps i b q b₂ q₂

/-- What holds of the room and of the threads around it. -/
structure Sound (y : Config (Room D) (Phase K)) : Prop where
  mutex : (if y.shared.held then 1 else 0 : ℤ) = y.threads.countP Phase.holds
  nodup : y.shared.asleep.Nodup
  waiting : ∀ i ∈ y.shared.asleep, ∃ q : Phase K, y.threads[i]? = some q ∧ q.waits = true
  tracks : M.tracks y.shared.data (y.threads.countP Phase.registered)
  need_le : M.need y.shared.data ≤ y.threads.countP Phase.registered
  /-- The waiters that are awake and the single notices to come cover the need. -/
  covered : M.need y.shared.data + y.shared.asleep.length ≤
    y.threads.countP Phase.registered + y.threads.countP Phase.givesOne
  fresh : ∀ (i : ℕ) (k : K), i ∈ y.shared.asleep → y.threads[i]? = some (.waiting k) →
    M.stale y.shared.data k → .notifying .all ∈ y.threads

end Discipline

/-! ## Sleepers and waiting threads -/

section Sleepers
variable {α : Type} {l : List α} {p : α → Bool} {is : List ℕ}

theorem length_le_countP_of_indices (hnodup : is.Nodup)
    (h : ∀ i ∈ is, ∃ a, l[i]? = some a ∧ p a = true) : is.length ≤ l.countP p := by
  have hsub : is ⊆ l.findIdxs p := by
    intro i hi
    obtain ⟨a, ha, hp⟩ := h i hi
    obtain ⟨hlt, rfl⟩ := List.getElem?_eq_some_iff.mp ha
    exact List.mem_findIdxs_iff_exists_getElem_pos.mpr ⟨hlt, hp⟩
  rw [← List.length_findIdxs (s := 0)]
  exact (List.subperm_of_subset hnodup hsub).length_le

theorem countP_le_length_of_indices
    (h : ∀ (i : ℕ) (a : α), l[i]? = some a → p a = true → i ∈ is) : l.countP p ≤ is.length := by
  have hsub : l.findIdxs p ⊆ is := by
    intro i hi
    obtain ⟨hlt, hp⟩ := List.mem_findIdxs_iff_exists_getElem_pos.mp hi
    exact h i _ (List.getElem?_eq_getElem hlt) hp
  rw [← List.length_findIdxs (s := 0)]
  exact (List.subperm_of_subset List.nodup_findIdxs hsub).length_le

end Sleepers

/-! ## What a step keeps -/

namespace Discipline
variable {D K : Type} {M : Discipline D K} {y : Config (Room D) (Phase K)}

namespace Step
variable {i j : ℕ} {b b' : Room D} {q q' : Phase K}

/-- A thread in the wait set after a step was there before or goes to sleep in it. -/
theorem asleep_cases (hs : M.Step i b q b' q') (hnodup : b.asleep.Nodup)
    (hi : i ∈ b.asleep → q.waits = true) (hj : j ∈ b'.asleep) :
    (j = i ∧ q'.waits = true) ∨ (j ≠ i ∧ j ∈ b.asleep) := by
  cases hs with
  | sleep h =>
      rcases List.mem_cons.mp hj with rfl | hj
      · exact .inl ⟨rfl, rfl⟩
      · exact .inr ⟨fun hji => Bool.false_ne_true (hi (hji ▸ hj)), hj⟩
  | spurious =>
      rw [hnodup.mem_erase_iff] at hj
      exact .inr hj
  | resume hb hnot => exact .inr ⟨fun hji => hnot (hji ▸ hj), hj⟩
  | one hk =>
      have hj := List.mem_of_mem_erase hj
      exact .inr ⟨fun hji => Bool.false_ne_true (hi (hji ▸ hj)), hj⟩
  | all => exact (List.not_mem_nil hj).elim
  | _ => exact .inr ⟨fun hji => Bool.false_ne_true (hi (hji ▸ hj)), hj⟩

theorem nodup (hs : M.Step i b q b' q') (hnodup : b.asleep.Nodup)
    (hi : i ∈ b.asleep → q.waits = true) : b'.asleep.Nodup := by
  cases hs with
  | sleep h => exact List.nodup_cons.mpr ⟨fun h => Bool.false_ne_true (hi h), hnodup⟩
  | spurious | one => exact hnodup.erase _
  | all => exact List.nodup_nil
  | _ => exact hnodup

/-- Only a change for everybody makes a waiter stale. -/
theorem stale {k : K} (hs : M.Step i b q b' q') (hk : M.stale b'.data k) :
    M.stale b.data k ∨ q' = .notifying .all := by
  cases hs with
  | enter h => exact .inl (M.stale_enter h hk)
  | leave h => exact .inl (M.stale_leave h hk)
  | @change _ n h =>
      by_cases hn : n = .all
      · exact .inr (hn ▸ rfl)
      · exact .inl (M.stale_change h hn hk)
  | _ => exact .inl hk

end Step

/-- Every sleeper waits, so a thread at its test is a registered one besides. -/
theorem Sound.asleep_lt (h : M.Sound y) {k : K} (hk : .testing k ∈ y.threads) :
    y.shared.asleep.length < y.threads.countP Phase.registered := by
  have hle := length_le_countP_of_indices h.nodup h.waiting
  have hsplit := ListTotals.countP_and_not (p := Phase.registered) (q := Phase.waits) y.threads
    fun q _ hq => by cases q <;> first | rfl | cases hq
  have hpos : 0 < y.threads.countP fun q => q.registered && !q.waits :=
    List.countP_pos_iff.mpr ⟨_, hk, rfl⟩
  omega

theorem Sound.asleep_le (h : M.Sound y) :
    y.shared.asleep.length ≤ y.threads.countP Phase.registered :=
  (length_le_countP_of_indices h.nodup h.waiting).trans
    (List.countP_mono_left fun q _ hq => by cases q <;> first | rfl | cases hq)

/-! The parts of the invariant after a step of thread `i`. -/

section Parts
variable {i : ℕ} {q q' : Phase K} {b' : Room D}

theorem Sound.waits_of_asleep (h : M.Sound y) (hi : y.threads[i]? = some q)
    (hin : i ∈ y.shared.asleep) : q.waits = true := by
  obtain ⟨q₀, hq₀, hw⟩ := h.waiting i hin
  rw [hi, Option.some.injEq] at hq₀
  exact hq₀ ▸ hw

/-- The mutex is held while a thread holds it, by that thread alone. -/
theorem Sound.held_of_holds (h : M.Sound y) (hq : q ∈ y.threads) (hholds : q.holds = true) :
    y.shared.held = true := by
  have hmutex := h.mutex
  have hpos := List.countP_pos_iff.mpr ⟨q, hq, hholds⟩
  by_contra hb
  simp only [hb, if_false] at hmutex
  omega

theorem Sound.holder_unique (h : M.Sound y) {j : ℕ} (hi : y.threads[i]? = some q)
    (hj : y.threads[j]? = some q') (hq : q.holds = true) (hq' : q'.holds = true) : i = j := by
  by_contra hij
  have htwo := ListTotals.add_le_total (f := fun q : Phase K => if q.holds then 1 else 0)
    (fun q => by split <;> omega) hij hi hj
  have hmutex := h.mutex
  rw [← ListTotals.total_indicator] at hmutex
  simp only [hq, hq', if_true] at htwo
  split at hmutex <;> omega

theorem Sound.mutex_after (h : M.Sound y) (hi : y.threads[i]? = some q)
    (hs : M.Step i y.shared q b' q') :
    (if b'.held then 1 else 0 : ℤ) = (y.after i (b', q', [])).threads.countP Phase.holds := by
  have hcount := Config.countP_after Phase.holds hi (r := (b', q', [])) nofun
  have hmutex := h.mutex
  have hheld := h.held_of_holds (List.mem_of_getElem? hi)
  cases hs with
  | acquire hb | resume hb =>
      simp only [hb, Phase.holds, if_true, Bool.false_eq_true, if_false] at hmutex hcount ⊢
      omega
  | release | sleep =>
      simp only [hheld rfl, Phase.holds, if_true, Bool.false_eq_true, if_false] at hmutex hcount ⊢
      omega
  | _ =>
      simp only [Phase.holds, if_true, Bool.false_eq_true, if_false] at hmutex hcount ⊢
      omega

theorem Sound.tracks_after (h : M.Sound y) (hi : y.threads[i]? = some q)
    (hs : M.Step i y.shared q b' q') :
    M.tracks b'.data ((y.after i (b', q', [])).threads.countP Phase.registered) := by
  have hcount := Config.countP_after Phase.registered hi (r := (b', q', [])) nofun
  have htracks := h.tracks
  generalize (y.after i (b', q', [])).threads.countP Phase.registered = n at hcount ⊢
  have hsame (hq : q.registered = q'.registered) :
      n = y.threads.countP Phase.registered := by
    rw [hq] at hcount
    exact_mod_cast add_right_cancel hcount
  cases hs with
  | enter he =>
      have heq : n = y.threads.countP Phase.registered + 1 := by
        simpa only [Phase.registered, if_true, Bool.false_eq_true, if_false, add_zero,
          ← Nat.cast_succ, Nat.cast_inj] using hcount
      rw [heq]
      exact M.tracks_enter he htracks
  | leave he =>
      have heq : n + 1 = y.threads.countP Phase.registered := by
        simpa only [Phase.registered, if_true, Bool.false_eq_true, if_false, add_zero,
          ← Nat.cast_succ, Nat.cast_inj] using hcount
      refine M.tracks_leave he ?_
      rwa [heq]
  | change he =>
      rw [hsame rfl]
      exact M.tracks_change he htracks
  | _ =>
      rw [hsame rfl]
      exact htracks

theorem Sound.need_after (h : M.Sound y) (hi : y.threads[i]? = some q)
    (hs : M.Step i y.shared q b' q') :
    M.need b'.data ≤ (y.after i (b', q', [])).threads.countP Phase.registered := by
  have hcount := Config.countP_after Phase.registered hi (r := (b', q', [])) nofun
  have hneed := h.need_le
  cases hs with
  | enter he =>
      have hle := M.need_enter he
      simp only [Phase.registered, if_true, Bool.false_eq_true, if_false] at hcount ⊢
      omega
  | leave he =>
      have hle := M.need_leave he
      simp only [Phase.registered, if_true, Bool.false_eq_true, if_false] at hcount ⊢
      omega
  | change he =>
      have hle := M.need_change he h.tracks hneed
      simp only [Phase.registered, Bool.false_eq_true, if_false] at hcount ⊢
      omega
  | _ =>
      simp only [Phase.registered, if_true, Bool.false_eq_true, if_false] at hcount ⊢
      omega

theorem Sound.covered_after (h : M.Sound y) (hi : y.threads[i]? = some q)
    (hs : M.Step i y.shared q b' q') :
    M.need b'.data + b'.asleep.length ≤
      (y.after i (b', q', [])).threads.countP Phase.registered +
        (y.after i (b', q', [])).threads.countP Phase.givesOne := by
  have hcount := Config.countP_after Phase.registered hi (r := (b', q', [])) nofun
  have hgives := Config.countP_after Phase.givesOne hi (r := (b', q', [])) nofun
  have hcov := h.covered
  have hmem := List.mem_of_getElem? hi
  cases hs with
  | enter he =>
      have hle := M.need_enter he
      simp only [Phase.registered, Phase.givesOne, if_true, Bool.false_eq_true, if_false]
        at hcount hgives ⊢
      omega
  | leave he =>
      -- without need, the thread is counted beside the sleepers
      have hle := M.need_leave he
      have hlt := h.asleep_lt hmem
      simp only [Phase.registered, Phase.givesOne, if_true, Bool.false_eq_true, if_false]
        at hcount hgives ⊢
      omega
  | sleep he =>
      have hzero := (M.idle_iff.mp he).1
      have hlt := h.asleep_lt hmem
      simp only [Phase.registered, Phase.givesOne, if_true, Bool.false_eq_true, if_false,
        List.length_cons] at hcount hgives ⊢
      omega
  | spurious =>
      have hle := y.shared.asleep.length_erase_le (a := i)
      simp only [Phase.registered, Phase.givesOne, if_true, Bool.false_eq_true, if_false]
        at hcount hgives ⊢
      omega
  | @change d n he =>
      have hle := h.asleep_le
      cases n with
      | none =>
          have hneed := M.need_none he
          simp only [Phase.registered, Phase.givesOne, Bool.false_eq_true, if_false]
            at hcount hgives ⊢
          omega
      | one =>
          have hneed := M.need_one he
          simp only [Phase.registered, Phase.givesOne, if_true, Bool.false_eq_true, if_false]
            at hcount hgives ⊢
          omega
      | all =>
          have hneed := M.need_all he
          simp only [Phase.registered, Phase.givesOne, Bool.false_eq_true, if_false]
            at hcount hgives ⊢
          omega
  | one hj =>
      have hlen := List.length_erase_of_mem hj
      have hpos := List.length_pos_of_mem hj
      simp only [Phase.registered, Phase.givesOne, if_true, Bool.false_eq_true, if_false]
        at hcount hgives ⊢
      omega
  | nobody hb =>
      -- nobody sleeps, so every registered waiter is awake
      have hneed := h.need_le
      simp only [Phase.registered, Phase.givesOne, if_true, Bool.false_eq_true, if_false, hb,
        List.length_nil] at hcount hgives ⊢
      omega
  | all =>
      simp only [Phase.registered, Phase.givesOne, Bool.false_eq_true, if_false,
        List.length_nil] at hcount hgives ⊢
      omega
  | _ =>
      simp only [Phase.registered, Phase.givesOne, if_true, Bool.false_eq_true, if_false]
        at hcount hgives ⊢
      omega

theorem Sound.fresh_after (h : M.Sound y) (hi : y.threads[i]? = some q)
    (hs : M.Step i y.shared q b' q') {j : ℕ} {k : K} (hj : j ∈ b'.asleep)
    (hk : (y.after i (b', q', [])).threads[j]? = some (.waiting k))
    (hstale : M.stale b'.data k) : .notifying .all ∈ (y.after i (b', q', [])).threads := by
  have hself := Config.getElem?_after_self hi (r := (b', q', []))
  rcases hs.asleep_cases h.nodup (h.waits_of_asleep hi) hj with ⟨rfl, -⟩ | ⟨hji, hold⟩
  · -- a thread that went to sleep in this step found nothing to leave on
    rw [hself, Option.some.injEq] at hk
    cases hs with
    | sleep he =>
        cases hk
        exact ((M.idle_iff.mp he).2 hstale).elim
    | spurious => exact (h.nodup.not_mem_erase hj).elim
    | _ => cases hk
  · have hk' : y.threads[j]? = some (.waiting k) := by
      rcases Config.getElem?_after hi hk with ⟨hji', _⟩ | ⟨_, hk⟩ | ⟨_, hk⟩
      · exact (hji hji').elim
      · exact hk
      · exact (List.not_mem_nil hk).elim
    rcases hs.stale hstale with hold' | rfl
    · have hall := h.fresh j k hold hk' hold'
      by_cases hq : q = .notifying .all
      · subst hq
        cases hs with
        | all => exact (List.not_mem_nil hj).elim
      · exact Config.mem_after_of_ne hi hall hq _
    · exact List.mem_of_getElem? hself

/-- The invariant is kept by every step of every thread. -/
theorem Sound.step (h : M.Sound y) (hi : y.threads[i]? = some q)
    (hs : M.Step i y.shared q b' q') : M.Sound (y.after i (b', q', [])) where
  mutex := h.mutex_after hi hs
  nodup := hs.nodup h.nodup (h.waits_of_asleep hi)
  waiting := by
    intro j hj
    rcases hs.asleep_cases h.nodup (h.waits_of_asleep hi) hj with ⟨rfl, hw⟩ | ⟨hji, hold⟩
    · exact ⟨q', Config.getElem?_after_self hi, hw⟩
    · obtain ⟨q₀, hq₀, hw⟩ := h.waiting j hold
      exact ⟨q₀, Config.getElem?_after_ne hji hq₀, hw⟩
  tracks := h.tracks_after hi hs
  need_le := h.need_after hi hs
  covered := h.covered_after hi hs
  fresh := fun _ _ => h.fresh_after hi hs

theorem Sound.steps (h : M.Sound y) (hi : y.threads[i]? = some q)
    (hs : M.Steps i y.shared q b' q') : M.Sound (y.after i (b', q', [])) := by
  generalize hb : y.shared = b at hs
  induction hs with
  | refl =>
      obtain ⟨hlt, rfl⟩ := List.getElem?_eq_some_iff.mp hi
      simpa only [Config.after, List.append_nil, List.set_getElem_self, ← hb] using h
  | tail _ hstep ih =>
      have hy := ih.step (Config.getElem?_after_self hi) hstep
      simpa only [Config.after, List.append_nil, List.set_set] using hy

end Parts

/-- A thread that is away adds nothing. -/
theorem Sound.entered (h : M.Sound y) : M.Sound ⟨y.shared, y.threads ++ [Phase.away]⟩ := by
  have hcount {p : Phase K → Bool} (hp : p .away = false) :
      (y.threads ++ [Phase.away]).countP p = y.threads.countP p := by
    simp [hp]
  have hholds := hcount (p := Phase.holds) rfl
  have hregistered := hcount (p := Phase.registered) rfl
  have hgives := hcount (p := Phase.givesOne) rfl
  refine ⟨hholds ▸ h.mutex, h.nodup, fun i hi => ?_, hregistered ▸ h.tracks,
    hregistered ▸ h.need_le, ?_, fun i k hi hk hstale => ?_⟩
  · obtain ⟨q, hq, hw⟩ := h.waiting i hi
    exact ⟨q, List.getElem?_append_left (List.getElem?_eq_some_iff.mp hq).1 ▸ hq, hw⟩
  · rw [hregistered, hgives]
    exact h.covered
  · rcases getElem?_concat_cases hk with hk | ⟨_, hk⟩
    · exact List.mem_append_left _ (h.fresh i k hi hk hstale)
    · cases hk

/-! ## Where nobody can go on -/

theorem Sound.free (h : M.Sound y) (hfree : ∀ q ∈ y.threads, q.holds = false) :
    y.shared.held = false := by
  have hmutex := h.mutex
  rw [List.countP_eq_zero.mpr fun q hq => by simp [hfree q hq]] at hmutex
  by_contra hb
  simp [hb] at hmutex

/-- When no thread holds the mutex and every waiting thread is asleep, the data is idle
for all of them. -/
theorem Sound.idle (h : M.Sound y) (hfree : ∀ q ∈ y.threads, q.holds = false)
    (hasleep : ∀ (i : ℕ) (k : K), y.threads[i]? = some (.waiting k) → i ∈ y.shared.asleep)
    {k : K} (hk : .waiting k ∈ y.threads) : M.idle y.shared.data k := by
  have hregistered : y.threads.countP Phase.registered ≤ y.shared.asleep.length := by
    refine countP_le_length_of_indices fun i q hq hr => ?_
    cases q with
    | testing k => exact (Bool.false_ne_true (hfree _ (List.mem_of_getElem? hq)).symm).elim
    | waiting k => exact hasleep i k hq
    | _ => cases hr
  have hgives : y.threads.countP Phase.givesOne = 0 := by
    refine List.countP_eq_zero.mpr fun q hq hg => ?_
    cases q with
    | notifying n => exact Bool.false_ne_true (hfree _ hq).symm
    | _ => cases hg
  have hcov := h.covered
  refine M.idle_iff.mpr ⟨by omega, fun hstale => ?_⟩
  obtain ⟨i, hi⟩ := List.mem_iff_getElem?.mp hk
  have hall := h.fresh i k (hasleep i k hi) hi hstale
  exact Bool.false_ne_true (hfree _ hall).symm

/-! ## Programs that use the room -/

variable {S T C A : Type} {P : Program S T C A} {room : S → Room D} {phase : T → Phase K}

/-- The room with the phases of the threads. -/
def seen (room : S → Room D) (phase : T → Phase K) (x : Config S T) : Config (Room D) (Phase K) :=
  ⟨room x.shared, x.threads.map phase⟩

/-- Every step of the program is some steps of the room by the thread that takes it. -/
structure Follows (M : Discipline D K) (P : Program S T C A) (room : S → Room D)
    (phase : T → Phase K) : Prop where
  start : ∀ i c, phase (P.start i c) = .away
  next : ∀ s i t a r, P.next s i t a = some r →
    M.Steps i (room s) (phase t) (room r.1) (phase r.2.1) ∧ r.2.2 = []

theorem Follows.sound (hP : M.Follows P room phase) {I : Config S T → Prop}
    {G : Config S T → Move C A → Prop} (init : ∀ x, I x → M.Sound (seen room phase x))
    {x : Config S T} (hx : P.Reach I G x) : M.Sound (seen room phase x) := by
  refine Program.Reach.invariant (J := fun x => M.Sound (seen room phase x)) init ?_ ?_ hx
  · intro x c _ h _
    have hy := h.entered
    rwa [← hP.start x.threads.length c, seen, ← List.map_singleton (f := phase),
      ← List.map_append] at hy
  · intro x i a t r _ h _ ht hn
    obtain ⟨hs, hnil⟩ := hP.next _ _ _ _ _ hn
    have ht' : (seen room phase x).threads[i]? = some (phase t) := by
      simp only [seen, List.getElem?_map, ht, Option.map_some]
    have hy := h.steps ht' hs
    simpa only [seen, Config.after, hnil, List.append_nil, List.map_set] using hy

end Discipline

end AntsPool.Condvars
