import AntsPool.CondRefines
import Mathlib.Data.Prod.Lex

/-!
# Threads at rest

The internal mutex is never held while a thread takes the caller's lock, so the two
locks do not block each other, and every notice reaches a sleeper or is not needed:
when no thread can go on without a spurious wake-up, both locks are free and whoever
still sleeps would find nothing to leave on.
-/
namespace AntsPool.CondThreads
open Interleaving Condvars CondClients

def Thread.returned : Thread → Bool
  | .waiter _ .returned | .caller _ .returned => true
  | _ => false

theorem waiting_of_phase {t : Thread} {g : ℕ} (h : t.phase = .waiting g) :
    ∃ b, t = .waiter b (.sleep g) := by
  cases t with
  | waiter b pc =>
      cases pc with
      | sleep g' =>
          cases h
          exact ⟨b, rfl⟩
      | _ => cases h
  | caller c pc => cases pc <;> cases h

/-- The holder of the mutex can always go on. -/
theorem next_of_holds {s : Monitor} {i : ℕ} {t : Thread} (h : t.phase.holds = true) :
    ∃ a, a ≠ .spurious ∧ threads.next s i t a ≠ none := by
  cases t with
  | waiter b pc =>
      refine ⟨.go, by decide, ?_⟩
      cases pc with
      | register | dropGuard | dropWaiters => exact Option.some_ne_none _
      | pass g =>
          simp only [threads, Thread.next, WaiterPc.next]
          cases s.waiters.data.poll g <;> exact Option.some_ne_none _
      | _ => cases h
  | caller c pc =>
      cases pc with
      | notify n =>
          cases n with
          | one =>
              cases hw : s.waiters.asleep with
              | nil =>
                  refine ⟨.go, by decide, ?_⟩
                  simp [threads, Thread.next, CallerPc.next, hw]
              | cons j l =>
                  refine ⟨.notified j, (fun hj => by cases hj), ?_⟩
                  simp [threads, Thread.next, CallerPc.next, hw]
          | _ => exact ⟨.go, by decide, Option.some_ne_none _⟩
      | change | drop => exact ⟨.go, by decide, Option.some_ne_none _⟩
      | _ => cases h

/-- A thread that is not asleep can go on once both locks are free. -/
theorem next_of_free {s : Monitor} {i : ℕ} {t : Thread} (hl : s.locked = false)
    (hw : s.waiters.held = false) (ht : t.returned = false)
    (hsleep : ∀ b g, t = .waiter b (.sleep g) → i ∉ s.waiters.asleep) :
    ∃ a, a ≠ .spurious ∧ threads.next s i t a ≠ none := by
  by_cases hb : t.phase.holds = true
  · exact next_of_holds hb
  refine ⟨.go, by decide, ?_⟩
  cases t with
  | waiter b pc =>
      cases pc with
      | test again =>
          simp only [threads, Thread.next, WaiterPc.next]
          split <;> exact Option.some_ne_none _
      | sleep g =>
          simp [threads, Thread.next, WaiterPc.next, hw, hsleep b g rfl]
      | lock | enter | relock | held =>
          simp [threads, Thread.next, WaiterPc.next, hl, hw]
      | returned => cases ht
      | _ => exact (hb rfl).elim
  | caller c pc =>
      cases pc with
      | lock | enter | unlock => simp [threads, Thread.next, CallerPc.next, hl, hw]
      | returned => cases ht
      | _ => exact (hb rfl).elim

/-- The caller's lock is needed to go on by none of those that hold it. -/
theorem next_of_plays {s : Monitor} {i : ℕ} {t : Thread} {u : Client} (h : Plays t u)
    (hu : u.holdsLock = true) (hw : s.waiters.held = false) :
    ∃ a, a ≠ .spurious ∧ threads.next s i t a ≠ none := by
  by_cases hb : t.phase.holds = true
  · exact next_of_holds hb
  refine ⟨.go, by decide, ?_⟩
  cases h with
  | test =>
      simp only [threads, Thread.next, WaiterPc.next]
      split <;> exact Option.some_ne_none _
  | enter | held => simp [threads, Thread.next, WaiterPc.next, hw]
  | @producer pc =>
      cases pc with
      | enter | unlock => simp [threads, Thread.next, CallerPc.next, hw]
      | lock | returned => cases hu
      | _ => exact (hb rfl).elim
  | register | dropGuard => exact (hb rfl).elim
  | _ => cases hu

namespace AtRest
variable {G : State → Move Request Choice → Prop} {x : State}

theorem next_eq_none (h : AtRest x) {i : ℕ} {t : Thread} (ht : x.threads[i]? = some t) {a : Choice}
    (ha : a ≠ .spurious) : threads.next x.shared i t a = none := by
  have hnone := h i a ha
  simp only [Program.fire, ht, Option.map_eq_none_iff] at hnone
  exact hnone

theorem holds_eq_false (h : AtRest x) {q : Phase ℕ} (hq : q ∈ (room x).threads) :
    q.holds = false := by
  obtain ⟨t, ht, rfl⟩ := List.mem_map.mp hq
  obtain ⟨i, hi⟩ := List.mem_iff_getElem?.mp ht
  by_contra hb
  obtain ⟨a, ha, hnext⟩ := next_of_holds (s := x.shared) (i := i) (by simpa using hb)
  exact hnext (h.next_eq_none hi ha)

theorem asleep_of_waiting (h : AtRest x) (hw : x.shared.waiters.held = false) {i : ℕ} {b : Bool}
    {g : ℕ} (hi : x.threads[i]? = some (.waiter b (.sleep g))) : i ∈ x.shared.waiters.asleep := by
  by_contra hin
  have hnone := h.next_eq_none hi (a := .go) (by decide)
  simp [threads, Thread.next, WaiterPc.next, hw, hin] at hnone

end AtRest

/-- When no thread can go on without a spurious wake-up, the caller's lock and the
mutex are free, and every thread has returned or sleeps with nothing to leave on. -/
theorem Reached.nobody_sleeps_past_a_notice {G : State → Move Request Choice → Prop} {x : State}
    (h : Reached G x) (hrest : AtRest x) :
    x.shared.locked = false ∧ x.shared.waiters.held = false ∧
      ∀ t ∈ x.threads, t.returned = true ∨
        ∃ b g, t = .waiter b (.sleep g) ∧ x.shared.waiters.data.poll g = none := by
  have hsound := h.sound
  have hfree : x.shared.waiters.held = false := hsound.free fun q => hrest.holds_eq_false
  have hlocked : x.shared.locked = false := by
    obtain ⟨y, hy, hshows⟩ := h.shows (fun _ _ => True) (fun _ _ _ _ _ => trivial)
      fun _ _ => trivial
    have hlock := hy.lock_eq
    rw [hshows.locked] at hlock
    by_contra hb
    rw [Bool.not_eq_false] at hb
    simp only [hb, if_true] at hlock
    have hpos : 0 < y.threads.countP Client.holdsLock := by omega
    obtain ⟨u, hu, hholds⟩ := List.countP_pos_iff.mp hpos
    obtain ⟨i, hi⟩ := List.mem_iff_getElem?.mp hu
    have hlt := (List.getElem?_eq_some_iff.mp hi).1
    rw [hshows.length] at hlt
    have ht := List.getElem?_eq_getElem hlt
    obtain ⟨a, ha, hnext⟩ := next_of_plays (s := x.shared) (i := i) (hshows.plays i _ u ht hi).1
      hholds hfree
    exact hnext (hrest.next_eq_none ht ha)
  refine ⟨hlocked, hfree, fun t ht => ?_⟩
  obtain ⟨i, hi⟩ := List.mem_iff_getElem?.mp ht
  by_cases hreturned : t.returned = true
  · exact .inl hreturned
  right
  by_cases hsleep : ∃ b g, t = .waiter b (.sleep g)
  · obtain ⟨b, g, rfl⟩ := hsleep
    refine ⟨b, g, rfl, ?_⟩
    refine hsound.idle (fun q => hrest.holds_eq_false) (fun j k hj => ?_)
      (List.mem_map.mpr ⟨_, ht, rfl⟩)
    obtain ⟨t', ht', hphase⟩ := Option.map_eq_some_iff.mp (List.getElem?_map.symm.trans hj)
    obtain ⟨b', rfl⟩ := waiting_of_phase hphase
    exact hrest.asleep_of_waiting hfree ht'
  · obtain ⟨a, ha, hnext⟩ := next_of_free (s := x.shared) (i := i) hlocked hfree
      (by simpa using hreturned) fun b g hbg => (hsleep ⟨b, g, hbg⟩).elim
    exact (hnext (hrest.next_eq_none hi ha)).elim

/-! ## Coming to rest -/

namespace Thread

/-- Still to change the bookkeeping. -/
def owesChange : Thread → Bool
  | .caller _ .lock | .caller _ .enter | .caller _ .change => true
  | _ => false

/-- A registered waiter that a broadcast has released. -/
def isStale (generation : ℕ) : Thread → Bool
  | .waiter _ (.dropGuard g) | .waiter _ (.pass g) | .waiter _ (.sleep g) => g != generation
  | _ => false

def sleeps : Thread → Bool
  | .waiter _ (.sleep _) => true
  | _ => false

def notifies : Thread → Bool
  | .caller _ (.notify _) => true
  | _ => false

/-- The steps of a thread up to its sleep, its return or its next notice. -/
def rank : Thread → ℤ
  | .waiter _ .dropWaiters => 7
  | .waiter _ .lock | .waiter _ .relock | .caller _ .lock => 6
  | .waiter _ (.test _) | .caller _ .enter => 5
  | .waiter _ .enter | .caller _ .change => 4
  | .waiter _ .register | .caller _ (.notify _) => 3
  | .waiter _ (.dropGuard _) | .caller _ .drop => 2
  | .waiter _ (.pass _) | .waiter _ .held | .caller _ .unlock => 1
  | .waiter _ (.sleep _) | .waiter _ .returned | .caller _ .returned => 0

theorem rank_nonneg (t : Thread) : 0 ≤ t.rank := by
  unfold rank
  split <;> decide

end Thread

/-- What keeps the threads going: changes to come, waiters let go, notices to give, and
the steps up to the next of these, with two for every sleeper that has been notified. -/
def load (x : State) : ℕ ×ₗ ℕ ×ₗ ℕ ×ₗ ℕ :=
  toLex (x.threads.countP Thread.owesChange, toLex
    (x.shared.waiters.data.tokens +
        x.threads.countP (Thread.isStale x.shared.waiters.data.generation), toLex
      (x.threads.countP Thread.notifies,
        (ListTotals.total Thread.rank x.threads).toNat +
          2 * (x.threads.countP Thread.sleeps - x.shared.waiters.asleep.length))))

theorem Reached.asleep_le {G : State → Move Request Choice → Prop} {x : State}
    (h : Reached G x) :
    x.shared.waiters.asleep.length ≤ x.threads.countP Thread.sleeps := by
  refine length_le_countP_of_indices h.sound.nodup fun i hi => ?_
  obtain ⟨q, hq, hwaits⟩ := h.sound.waiting i hi
  obtain ⟨t, ht, rfl⟩ := Option.map_eq_some_iff.mp (List.getElem?_map.symm.trans hq)
  obtain ⟨g, hg⟩ := Phase.waits_iff.mp hwaits
  obtain ⟨b, rfl⟩ := waiting_of_phase hg
  exact ⟨_, ht, rfl⟩

/-- A step that is no spurious wake-up leaves less to do. -/
theorem Thread.Step.load_lt {x : State} {i : ℕ} {t t' : Thread} {s' : Monitor}
    (hs : Thread.Step x.shared i t s' t') (ht : x.threads[i]? = some t)
    (hle : x.shared.waiters.asleep.length ≤ x.threads.countP Thread.sleeps)
    (hle' : s'.waiters.asleep.length ≤
      (x.after i (s', t', [])).threads.countP Thread.sleeps)
    (hawake : ∀ b g, t = .waiter b (.sleep g) → t' ≠ t) :
    load (x.after i (s', t', [])) < load x := by
  have hchange := Config.countP_after Thread.owesChange ht (r := (s', t', [])) nofun
  have hstale := Config.countP_after (Thread.isStale x.shared.waiters.data.generation) ht
    (r := (s', t', [])) nofun
  have hnotify := Config.countP_after Thread.notifies ht (r := (s', t', [])) nofun
  have hwaits := Config.countP_after Thread.sleeps ht (r := (s', t', [])) nofun
  have hrank := Config.total_after Thread.rank ht (s', t', [])
  have hpos := ListTotals.total_nonneg (f := Thread.rank) (l := x.threads)
    fun t _ => t.rank_nonneg
  have hpos' := ListTotals.total_nonneg (f := Thread.rank)
    (l := (x.after i (s', t', [])).threads) fun t _ => t.rank_nonneg
  have hshared : (x.after i (s', t', [])).shared = s' := rfl
  simp only [load, Prod.Lex.toLex_lt_toLex, hshared]
  simp only [ListTotals.total_nil, add_zero] at hrank
  generalize x.after i (s', t', []) = y at *
  cases hs with
  | leave hp =>
      -- the waiter was let go by a token or by a broadcast
      obtain ⟨hgen, _, htokens⟩ := Cond.poll_some hp
      simp only [Thread.owesChange, Thread.isStale, bne_iff_ne, ne_eq, hgen,
        if_false, Bool.false_eq_true] at hchange hstale ⊢
      rcases htokens with ⟨_, htokens⟩ | ⟨_, htokens, hne⟩
      · split at hstale <;> omega
      · rw [if_pos (Ne.symm hne)] at hstale
        omega
  | change =>
      simp only [Thread.owesChange, if_true, if_false, Bool.false_eq_true]
        at hchange ⊢
      omega
  | quiet | nobody | one | all =>
      simp only [Thread.owesChange, Thread.isStale, Thread.notifies, if_true,
        if_false, Bool.false_eq_true] at hchange hstale hnotify ⊢
      omega
  | @spurious b g => exact (hawake b g rfl rfl).elim
  | register =>
      simp only [Thread.owesChange, Thread.isStale, Thread.notifies, Thread.rank,
        Thread.sleeps, Cond.register_generation, Cond.register_tokens, bne_self_eq_false,
        if_false, Bool.false_eq_true] at hchange hstale hnotify hwaits hrank hle' ⊢
      omega
  | sleep | dropGuard | resume =>
      -- the same generation before and after
      replace hstale := add_right_cancel hstale
      simp only [Thread.owesChange, Thread.notifies, Thread.rank,
        Thread.sleeps, List.length_cons, if_true, if_false, Bool.false_eq_true]
        at hchange hstale hnotify hwaits hrank hle' ⊢
      omega
  | @drop c =>
      cases c <;>
        simp only [Thread.owesChange, Thread.isStale, Thread.notifies, Thread.rank,
          Thread.sleeps, Caller.afterDrop, if_false, Bool.false_eq_true]
          at hchange hstale hnotify hwaits hrank hle' ⊢ <;>
        omega
  | _ =>
      simp only [Thread.owesChange, Thread.isStale, Thread.notifies, Thread.rank,
        Thread.sleeps, if_true, if_false, Bool.false_eq_true]
        at hchange hstale hnotify hwaits hrank hle' ⊢
      omega

theorem awake_of_next {s : Monitor} {i : ℕ} {b : Bool} {g : ℕ} {a : Choice} (ha : a ≠ .spurious)
    {r : Monitor × Thread × List Thread}
    (h : threads.next s i (.waiter b (.sleep g)) a = some r) : r.2.1 = .waiter b (.pass g) := by
  simp only [threads, Thread.next, WaiterPc.next, if_neg ha] at h
  split at h
  · cases h
  · split at h
    · cases h
    · cases h
      rfl

/-- A step of some thread without a spurious wake-up. -/
def Goes (y x : State) : Prop :=
  ∃ i a, a ≠ .spurious ∧ threads.fire x (.step i a) = some y

theorem Goes.load_lt {G : State → Move Request Choice → Prop} {x y : State} (h : Goes y x)
    (hx : Reached G x) (hy : Reached G y) : load y < load x := by
  obtain ⟨i, a, ha, hf⟩ := h
  obtain ⟨t, ⟨s', t', new⟩, ht, hn, rfl⟩ := threads.fire_step hf
  obtain ⟨hs, rfl⟩ := threads_step hn
  refine hs.load_lt ht hx.asleep_le hy.asleep_le ?_
  rintro b g rfl hsame
  have hpass := awake_of_next ha hn
  rw [hpass] at hsame
  cases hsame

/-- Between calls and without spurious wake-ups the threads come to rest. -/
theorem Reached.acc {x : State} (h : Reached (fun _ _ => True) x) : Acc Goes x := by
  induction hl : load x using WellFoundedLT.induction generalizing x with
  | ind l ih =>
      refine .intro x fun y hy => ?_
      obtain ⟨i, a, _, hf⟩ := id hy
      have hreached : Reached (fun _ _ => True) y := .move (.step i a) h trivial hf
      exact ih (load y) (hl ▸ hy.load_lt h hreached) hreached rfl

/-- However the threads are interleaved, between calls and without spurious wake-ups they
come to rest, and then nobody sleeps past a notice. -/
theorem threads_come_to_rest {x : State} (h : Reached (fun _ _ => True) x) :
    Acc Goes x ∧ (AtRest x → x.shared.locked = false ∧ x.shared.waiters.held = false ∧
      ∀ t ∈ x.threads, t.returned = true ∨
        ∃ b g, t = .waiter b (.sleep g) ∧ x.shared.waiters.data.poll g = none) :=
  ⟨h.acc, fun hrest => h.nobody_sleeps_past_a_notice hrest⟩

/-- Every thread has returned or sleeps and has not been notified. -/
def allRest (x : State) : Bool :=
  x.threads.zipIdx.all fun p =>
    p.1.returned || (p.1.sleeps && decide (p.2 ∈ x.shared.waiters.asleep))

theorem atRest_of_allRest {x : State} (h : allRest x = true) : AtRest x := by
  intro i a ha
  simp only [Program.fire]
  split
  · rfl
  · rename_i t ht
    have hrests := List.all_eq_true.mp h (t, i) (List.mem_zipIdx_iff_getElem?.mpr ht)
    rw [Option.map_eq_none_iff]
    simp only [Bool.or_eq_true, Bool.and_eq_true, decide_eq_true_eq] at hrests
    rcases hrests with hreturned | ⟨hsleeps, hi⟩
    · cases t with
      | waiter b pc => cases pc <;> first | rfl | cases hreturned
      | caller c pc => cases pc <;> first | rfl | cases hreturned
    · cases t with
      | waiter b pc =>
          cases pc with
          | sleep g => simp only [threads, Thread.next, WaiterPc.next, hi, ha, if_true, if_false,
              Option.map_none]
          | _ => cases hsleeps
      | caller c pc => cases hsleeps

/-- A waiter sleeps, wakes without a reason, is signalled and returns, and a second one
goes to sleep. -/
theorem threads_come_to_rest_small :
    ∃ x, Reached (fun _ _ => True) x ∧ AtRest x ∧ Acc Goes x ∧ x.shared.waiters.held = false ∧
      ∃ b g, .waiter b (.sleep g) ∈ x.threads ∧ x.shared.waiters.data.poll g = none := by
  obtain ⟨x, hx, hφ⟩ := Program.Reach.exists_of_run
    (P := threads) (I := Initial) (G := fun _ _ => True) (x := ⟨{}, []⟩)
    (m := [.call .wait, .call .signal, .step 0 .go, .step 0 .go, .step 0 .go, .step 0 .go,
      .step 0 .go, .step 1 .go, .step 1 .go, .step 0 .spurious, .step 1 .go, .step 1 .go,
      .step 0 .go, .step 0 .go, .step 0 .go, .step 0 .go, .step 0 .go, .call .wait, .step 2 .go,
      .step 2 .go, .step 2 .go, .step 2 .go, .step 2 .go])
    (φ := fun x => allRest x && decide (.waiter false (.sleep 0) ∈ x.threads)) ⟨0, rfl⟩ (by decide)
  simp only [Bool.and_eq_true, decide_eq_true_eq] at hφ
  have hrest := atRest_of_allRest hφ.1
  obtain ⟨hacc, hall⟩ := threads_come_to_rest hx
  obtain ⟨_, hheld, hthreads⟩ := hall hrest
  rcases hthreads _ hφ.2 with hreturned | ⟨b, g, hsleep, hpoll⟩
  · cases hreturned
  · exact ⟨x, hx, hrest, hacc, hheld, b, g, hsleep ▸ hφ.2, hpoll⟩

/-! ## Consumers at rest -/

/-- Only consumers, producers and broadcasts, and fewer than `2 ^ 64` of them. -/
def consumersOnly (x : State) : Move Request Choice → Prop
  | .call r => (r = .consume ∨ r = .produce ∨ r = .broadcast) ∧ x.threads.length + 1 < 2 ^ 64
  | .step _ _ => True

instance (x : State) : (m : Move Request Choice) → Decidable (consumersOnly x m)
  | .call r => inferInstanceAs (Decidable ((r = .consume ∨ r = .produce ∨ r = .broadcast) ∧
      x.threads.length + 1 < 2 ^ 64))
  | .step _ _ => inferInstanceAs (Decidable True)

/-- The same condition on the clients. -/
def fewClients (y : CondClients.State) : CondClients.Act → Prop
  | .call r => (r = .consume ∨ r = .produce ∨ r = .broadcast) ∧ y.threads.length + 1 < 2 ^ 64
  | .step _ _ => True

theorem length_lt_of_fewClients {y : CondClients.State} (h : CondClients.Reached fewClients y) :
    y.threads.length < 2 ^ 64 := by
  refine CondClients.Reached.invariant (J := fun y => y.threads.length < 2 ^ 64) ?_ ?_ ?_ h
  · exact fun n => Nat.two_pow_pos 64
  · intro y r _ _ hg
    simpa using hg.2
  · intro y i t s' t' _ hy _ _ _
    simpa [Config.after] using hy

/-- Every broadcast was a client's. -/
theorem broadcasts_le {G : CondClients.State → CondClients.Act → Prop} {y : CondClients.State}
    (h : CondClients.Reached G y) :
    y.shared.past.broadcasts ≤ y.threads.countP fun u => u == .done := by
  refine CondClients.Reached.invariant
    (J := fun y => y.shared.past.broadcasts ≤ y.threads.countP fun u => u == .done) ?_ ?_ ?_ h
  · exact fun n => le_rfl
  · intro y r _ hy _
    rw [List.countP_append]
    exact Nat.le_add_right_of_le hy
  · intro y i t s' t' _ hy _ ht hs
    have hcount := Config.countP_after (fun u : Client => u == .done) ht (r := (s', t', [])) nofun
    rcases hs.broadcast_cases with ⟨rfl, rfl, rfl⟩ | ⟨_, _, hsame⟩
    · have hone : (Monitor.broadcast y.shared).past.broadcasts = y.shared.past.broadcasts + 1 := rfl
      simp only [beq_self_eq_true, if_true] at hcount
      have hzero : (Client.broadcast == Client.done) = false := rfl
      simp only [hzero, Bool.false_eq_true, if_false] at hcount
      simp only [Config.after] at hcount ⊢
      omega
    · have hdone : (t == .done) = false := by cases hs <;> rfl
      rw [hdone] at hcount
      simp only [Bool.false_eq_true, if_false] at hcount
      simp only [Config.after] at hcount ⊢
      split at hcount <;> omega

theorem consumersOnly_of_fewClients {y : CondClients.State}
    (h : CondClients.Reached fewClients y) : CondClients.Reached CondClients.consumersOnly y := by
  refine h.strengthen fun z m hz hg => ?_
  cases m with
  | call r => exact hg.1
  | step i a =>
      -- the broadcasts so far and this one are different clients
      intro t ht hbroadcast u hu k hk
      obtain rfl := hbroadcast
      have hle := broadcasts_le hz
      have hlen := length_lt_of_fewClients hz
      have hsplit := List.length_eq_countP_add_countP (fun u => u == Client.done) (l := z.threads)
      have hpos : 0 < z.threads.countP fun u => ¬ (u == Client.done) = true :=
        List.countP_pos_iff.mpr ⟨.broadcast, List.mem_of_getElem? ht, by decide⟩
      omega

/-- A thread at rest plays no consumer that is still to test. -/
theorem retests_eq_false {t : Thread} {u : Client} (h : Plays t u)
    (ht : t.returned = true ∨ ∃ b g, t = .waiter b (.sleep g)) : u.retests = false := by
  rcases ht with ht | ⟨b, g, rfl⟩
  · cases h with
    | @returned b => cases b <;> rfl
    | producer | done => rfl
    | _ => cases ht
  · cases h
    cases b <;> rfl

/-- At rest no unit is left beside a sleeping consumer. -/
theorem no_unit_beside_sleepers {x : State} (h : Reached consumersOnly x) (hrest : AtRest x) :
    x.shared.units = 0 ∨ ∀ t ∈ x.threads, t.returned = true := by
  obtain ⟨_, hheld, hall⟩ := h.nobody_sleeps_past_a_notice hrest
  obtain ⟨y, hy, hshows⟩ := h.shows fewClients
    (fun z w r hzw hg => ⟨hg.1, hzw.length ▸ hg.2⟩) fun _ _ => trivial
  have hy := consumersOnly_of_fewClients hy
  have hdata := hshows.free hheld
  by_cases hreturned : ∀ t ∈ x.threads, t.returned = true
  · exact .inr hreturned
  left
  push Not at hreturned
  obtain ⟨t, ht, hsleeps⟩ := hreturned
  obtain ⟨b, g, rfl, hpoll⟩ := (hall t ht).resolve_left hsleeps
  obtain ⟨htokens, hgen⟩ := Cond.poll_none hpoll
  -- the sleeper's client is blocked, and current
  obtain ⟨i, hi⟩ := List.mem_iff_getElem?.mp ht
  obtain ⟨u, hu⟩ := hshows.client hi
  have humem := List.mem_of_getElem? hu
  obtain ⟨k, rfl, hk⟩ : ∃ k, u = .waiter b (.blocked k) ∧ k.generation = g := by
    cases (hshows.plays i _ u hi hu).1 with
    | sleep hk => exact ⟨_, rfl, hk⟩
  have hparked := hy.parked_pos humem rfl
  have hcurrent : 0 < y.shared.past.current := by
    have hb := (hy.generation_iff (fun _ _ => unwrapped_of_consumersOnly) humem rfl).mp
      (hdata ▸ hgen.trans hk.symm)
    rw [hy.current_eq]
    exact List.countP_pos_iff.mpr ⟨_, humem, Client.isCurrent_iff.mpr ⟨k, rfl, hb⟩⟩
  have hretests : y.threads.countP Client.retests = 0 := by
    refine List.countP_eq_zero.mpr fun v hv hretest => ?_
    obtain ⟨j, hj⟩ := List.mem_iff_getElem?.mp hv
    have hlt := (List.getElem?_eq_some_iff.mp hj).1
    rw [hshows.length] at hlt
    have hw := List.getElem?_eq_getElem hlt
    have hplays := (hshows.plays j _ v hw hj).1
    rcases hall _ (List.mem_of_getElem? hw) with hret | ⟨b', g', hsleep, _⟩
    · rw [retests_eq_false hplays (.inl hret)] at hretest
      exact Bool.false_ne_true hretest
    · rw [retests_eq_false hplays (.inr ⟨b', g', hsleep⟩)] at hretest
      exact Bool.false_ne_true hretest
  rcases hy.covered with hcov | hcov | hcov
  · rw [← hshows.units]
    rw [hretests, ← hdata, htokens] at hcov
    exact Nat.le_zero.mp hcov
  · rw [← hdata, htokens] at hcov
    rw [← hdata] at hparked
    omega
  · omega

/-- A consumer sleeps, a producer wakes it, and a second consumer goes to sleep. -/
theorem no_unit_beside_sleepers_small :
    ∃ x, Reached consumersOnly x ∧ AtRest x ∧ .waiter true (.sleep 0) ∈ x.threads ∧
      (x.shared.units = 0 ∨ ∀ t ∈ x.threads, t.returned = true) := by
  obtain ⟨x, hx, hφ⟩ := Program.Reach.exists_of_run
    (P := threads) (I := Initial) (G := consumersOnly) (x := ⟨{}, []⟩)
    (m := [.call .consume, .call .produce, .step 0 .go, .step 0 .go, .step 0 .go, .step 0 .go,
      .step 0 .go, .step 0 .go, .step 1 .go, .step 1 .go, .step 1 .go, .step 1 (.notified 0),
      .step 1 .go, .step 1 .go, .step 0 .go, .step 0 .go, .step 0 .go, .step 0 .go, .step 0 .go,
      .call .consume, .step 2 .go, .step 2 .go, .step 2 .go, .step 2 .go, .step 2 .go,
      .step 2 .go])
    (φ := fun x => allRest x && decide (.waiter true (.sleep 0) ∈ x.threads)) ⟨0, rfl⟩ (by decide)
  simp only [Bool.and_eq_true, decide_eq_true_eq] at hφ
  have hrest := atRest_of_allRest hφ.1
  exact ⟨x, hx, hrest, hφ.2, no_unit_beside_sleepers hx hrest⟩

end AntsPool.CondThreads
