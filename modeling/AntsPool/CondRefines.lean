import AntsPool.CondThreads
import AntsPool.CondUnits

/-!
# The condition variable refines its bookkeeping

`CondClients` lets a waiter register and pass through its loop in single steps on the
bookkeeping, and a waiter whose pass finds nothing just cannot move. The threads with
the mutex and the sleepers do nothing else: what they show in any interleaving is a
state that the clients reach.

A waiter gives the caller's lock back between its registration and its first pass, and
nobody can touch the bookkeeping in between. The clients take both at that point, so
while the mutex is held the bookkeeping may still be on its way to what is shown.
-/
namespace AntsPool.CondThreads
open Interleaving Condvars CondClients

/-- Where a producer's client stands. -/
def CallerPc.producer : CallerPc → ProducerPc
  | .lock => .lock
  | .enter | .change => .put
  | .notify _ | .drop | .unlock => .unlock
  | .returned => .returned

/-- Past the change of the bookkeeping. -/
def CallerPc.changed : CallerPc → Bool
  | .notify _ | .drop | .returned => true
  | _ => false

/-- Thread and client of the same call. -/
inductive Plays : Thread → Client → Prop
  | lock {b} : Plays (.waiter b .lock) (.waiter b .lock)
  | test {b again} : Plays (.waiter b (.test again)) (.waiter b (.test again))
  | enter {b} : Plays (.waiter b .enter) (.waiter b .wait)
  | register {b} : Plays (.waiter b .register) (.waiter b .wait)
  | dropGuard {b g} : Plays (.waiter b (.dropGuard g)) (.waiter b .wait)
  | pass {b g k} (hk : k.generation = g) : Plays (.waiter b (.pass g)) (.waiter b (.blocked k))
  | passed {b g k n} : Plays (.waiter b (.pass g)) (.waiter b (.woken k n))
  | sleep {b g k} (hk : k.generation = g) : Plays (.waiter b (.sleep g)) (.waiter b (.blocked k))
  | dropWaiters {b k n} : Plays (.waiter b .dropWaiters) (.waiter b (.woken k n))
  | relock {b k n} : Plays (.waiter b .relock) (.waiter b (.woken k n))
  | held {b} : Plays (.waiter b .held) (.waiter b .held)
  | returned {b} : Plays (.waiter b .returned) (.waiter b .returned)
  | producer {pc} : Plays (.caller .producer pc) (.producer pc.producer)
  | enterSignal : Plays (.caller .signal .enter) .signal
  | changeSignal : Plays (.caller .signal .change) .signal
  | enterBroadcast : Plays (.caller .broadcast .enter) .broadcast
  | changeBroadcast : Plays (.caller .broadcast .change) .broadcast
  | done {c pc} (hc : c ≠ .producer) (hpc : pc.changed = true) : Plays (.caller c pc) .done

theorem Plays.notified {c : Caller} {n : Notice} {u : Client}
    (h : Plays (.caller c (.notify n)) u) : Plays (.caller c .drop) u := by
  cases h with
  | producer => exact .producer
  | done hc => exact .done hc rfl

theorem Plays.dropped {c : Caller} {u : Client} (h : Plays (.caller c .drop) u) :
    Plays (.caller c c.afterDrop) u := by
  cases h with
  | producer => exact .producer
  | done hc =>
      cases c with
      | producer => exact (hc rfl).elim
      | _ => exact .done hc rfl

/-- How far the bookkeeping `c` is from the shown one `d` while the thread holds the
mutex. -/
def Offset (c d : Cond) : Thread → Client → Prop
  | .waiter _ (.dropGuard g), _ => c = d.register ∧ g = d.generation
  | .waiter _ (.pass g), .waiter _ (.woken _ _) => c.poll g = some d
  | _, _ => c = d

structure Agree (s : Monitor) (t : Thread) (m : CondClients.Monitor) (u : Client) : Prop where
  plays : Plays t u
  locked : m.locked = s.locked
  units : m.units = s.units
  free : s.waiters.held = false → s.waiters.data = m.cond
  holds : t.phase.holds = true → Offset s.waiters.data m.cond t u

/-! Nothing is asked about the holder of a thread that is none, nor the other way. -/

private theorem of_away {p : Prop} (h : false = true) : p := (Bool.false_ne_true h).elim

private theorem of_holding {p : Prop} (h : true = false) : p := (Bool.false_ne_true h.symm).elim

/-- A step of a thread is one of its client or shows nothing. -/
theorem Thread.Step.agree {s s' : Monitor} {i : ℕ} {t t' : Thread} {m : CondClients.Monitor}
    {u : Client} (hs : Thread.Step s i t s' t') (h : Agree s t m u)
    (hheld : t.phase.holds = true → s.waiters.held = true) :
    ∃ m' u', ((m' = m ∧ u' = u) ∨ u.next m = some (m', u')) ∧ Agree s' t' m' u' ∧
      (t.phase.holds = false → s.waiters.held = true →
        s'.waiters.data = s.waiters.data ∧ m'.cond = m.cond) := by
  obtain ⟨hplays, hlocked, hunits, hfree, hholds⟩ := h
  cases hs with
  | lockTest hl =>
      cases hplays
      refine ⟨{ m with locked := true }, .waiter true (.test false), .inr ?_,
        ⟨.test, rfl, hunits, hfree, of_away⟩, fun _ _ => ⟨rfl, rfl⟩⟩
      simp only [Client.next, hlocked, hl, Bool.false_eq_true, if_false, if_true]
  | lockWait hl =>
      cases hplays
      refine ⟨{ m with locked := true }, .waiter false .wait, .inr ?_,
        ⟨.enter, rfl, hunits, hfree, of_away⟩, fun _ _ => ⟨rfl, rfl⟩⟩
      simp only [Client.next, hlocked, hl, Bool.false_eq_true, if_false]
  | take hu =>
      cases hplays
      refine ⟨{ m with units := m.units - 1, locked := false }, .waiter _ .returned, .inr ?_,
        ⟨.returned, rfl, by simp only [hunits], hfree, of_away⟩, fun _ _ => ⟨rfl, rfl⟩⟩
      simp only [Client.next, hunits, hu, if_true]
  | empty hu =>
      cases hplays
      refine ⟨m, .waiter _ .wait, .inr ?_, ⟨.enter, hlocked, hunits, hfree, of_away⟩,
        fun _ _ => ⟨rfl, rfl⟩⟩
      simp only [Client.next, hunits, hu, lt_irrefl, if_false]
  | enter hw =>
      cases hplays
      exact ⟨m, _, .inl ⟨rfl, rfl⟩, ⟨.register, hlocked, hunits, of_holding, fun _ => hfree hw⟩,
        fun _ hheld => by simp [hw] at hheld⟩
  | register =>
      cases hplays
      have hc : s.waiters.data = m.cond := hholds rfl
      refine ⟨m, _, .inl ⟨rfl, rfl⟩,
        ⟨.dropGuard, hlocked, hunits, fun hb => ?_, fun _ => ?_⟩, of_holding⟩
      · simp [hheld rfl] at hb
      · simp only [Offset, hc, and_self]
  | dropGuard =>
      cases hplays
      obtain ⟨hc, rfl⟩ : s.waiters.data = m.cond.register ∧ _ = m.cond.generation := hholds rfl
      refine ⟨m.wait.1, .waiter _ m.wait.2, .inr rfl, ?_, of_holding⟩
      have hb := hheld rfl
      cases hpoll : m.cond.register.poll m.cond.generation with
      | none =>
          have hwait : m.wait = ({ m with cond := m.cond.register, locked := false, past :=
              { m.past with registered := m.past.registered + 1,
                            current := m.past.current + 1 } }, .blocked m.ticket) := by
            simp only [CondClients.Monitor.wait, Cond.register_generation, hpoll]
          rw [hwait]
          exact ⟨.pass rfl, rfl, hunits, fun _ => hc, fun _ => hc⟩
      | some c =>
          have hwait : m.wait = ({ m with cond := c, locked := false, past :=
              { m.past with registered := m.past.registered + 1,
                            served := m.past.served + 1 } }, .woken m.ticket m.past.issued) := by
            simp only [CondClients.Monitor.wait, Cond.register_generation, hpoll]
          rw [hwait]
          refine ⟨.passed, rfl, hunits, fun hfalse => ?_, fun _ => ?_⟩
          · simp [hb] at hfalse
          · simpa only [Offset, hc] using hpoll
  | leave hp =>
      have hb := hheld rfl
      cases hplays with
      | @pass _ _ k hk =>
          have hc : s.waiters.data = m.cond := hholds rfl
          refine ⟨m.leave k _, .waiter _ (.woken k m.past.issued), .inr ?_,
            ⟨.dropWaiters, hlocked, hunits, fun _ => rfl, fun _ => rfl⟩, of_holding⟩
          simp only [Client.next, ← hc, hk, hp, Option.map_some]
      | passed =>
          have hc : s.waiters.data.poll _ = some m.cond := hholds rfl
          rw [hp, Option.some.injEq] at hc
          exact ⟨m, _, .inl ⟨rfl, rfl⟩,
            ⟨.dropWaiters, hlocked, hunits, fun _ => hc, fun _ => hc⟩, of_holding⟩
  | sleep hp =>
      cases hplays with
      | @pass _ _ k hk =>
          have hc : s.waiters.data = m.cond := hholds rfl
          exact ⟨m, _, .inl ⟨rfl, rfl⟩,
            ⟨.sleep hk, hlocked, hunits, fun _ => hc, of_away⟩, of_holding⟩
      | passed =>
          have hc : s.waiters.data.poll _ = some m.cond := hholds rfl
          rw [hp] at hc
          cases hc
  | spurious =>
      cases hplays with
      | sleep hk =>
          exact ⟨m, _, .inl ⟨rfl, rfl⟩, ⟨.sleep hk, hlocked, hunits, hfree, of_away⟩,
            fun _ _ => ⟨rfl, rfl⟩⟩
  | resume hw =>
      cases hplays with
      | sleep hk =>
          exact ⟨m, _, .inl ⟨rfl, rfl⟩, ⟨.pass hk, hlocked, hunits, of_holding, fun _ => hfree hw⟩,
            fun _ hheld => by simp [hw] at hheld⟩
  | dropWaiters =>
      cases hplays
      have hc : s.waiters.data = m.cond := hholds rfl
      exact ⟨m, _, .inl ⟨rfl, rfl⟩, ⟨.relock, hlocked, hunits, fun _ => hc, of_away⟩, of_holding⟩
  | relockTest hl =>
      cases hplays
      refine ⟨{ m with locked := true }, .waiter true (.test true), .inr ?_,
        ⟨.test, rfl, hunits, hfree, of_away⟩, fun _ _ => ⟨rfl, rfl⟩⟩
      simp only [Client.next, hlocked, hl, Bool.false_eq_true, if_false, if_true]
  | relockHeld hl =>
      cases hplays
      refine ⟨{ m with locked := true }, .waiter false .held, .inr ?_,
        ⟨.held, rfl, hunits, hfree, of_away⟩, fun _ _ => ⟨rfl, rfl⟩⟩
      simp only [Client.next, hlocked, hl, Bool.false_eq_true, if_false]
  | unhold =>
      cases hplays
      exact ⟨{ m with locked := false }, _, .inr rfl, ⟨.returned, rfl, hunits, hfree, of_away⟩,
        fun _ _ => ⟨rfl, rfl⟩⟩
  | lockCall hl =>
      cases hplays with
      | producer =>
          refine ⟨{ m with locked := true }, .producer .put, .inr ?_,
            ⟨.producer, rfl, hunits, hfree, of_away⟩, fun _ _ => ⟨rfl, rfl⟩⟩
          simp only [CallerPc.producer, Client.next, hlocked, hl, Bool.false_eq_true, if_false]
      | done _ hpc => cases hpc
  | enterCall hw =>
      have hother (hb : s.waiters.held = true) : s.waiters.data = s.waiters.data ∧
          m.cond = m.cond := ⟨rfl, rfl⟩
      cases hplays with
      | producer =>
          exact ⟨m, _, .inl ⟨rfl, rfl⟩, ⟨.producer, hlocked, hunits, of_holding, fun _ => hfree hw⟩,
            fun _ => hother⟩
      | enterSignal =>
          exact ⟨m, _, .inl ⟨rfl, rfl⟩,
            ⟨.changeSignal, hlocked, hunits, of_holding, fun _ => hfree hw⟩, fun _ => hother⟩
      | enterBroadcast =>
          exact ⟨m, _, .inl ⟨rfl, rfl⟩,
            ⟨.changeBroadcast, hlocked, hunits, of_holding, fun _ => hfree hw⟩, fun _ => hother⟩
      | done _ hpc => cases hpc
  | change =>
      cases hplays with
      | producer =>
          have hc : s.waiters.data = m.cond := hholds rfl
          have hc' : s.waiters.data.signal = m.cond.signal := congrArg Cond.signal hc
          exact ⟨{ m.signal with units := m.units + 1 }, .producer .unlock, .inr rfl,
            ⟨.producer, hlocked, congrArg (· + 1) hunits, fun _ => hc', fun _ => hc'⟩, of_holding⟩
      | changeSignal =>
          have hc : s.waiters.data = m.cond := hholds rfl
          have hc' : s.waiters.data.signal = m.cond.signal := congrArg Cond.signal hc
          exact ⟨m.signal, .done, .inr rfl,
            ⟨.done (by decide) rfl, hlocked, hunits, fun _ => hc', fun _ => hc'⟩, of_holding⟩
      | changeBroadcast =>
          have hc : s.waiters.data = m.cond := hholds rfl
          have hc' : s.waiters.data.broadcast = m.cond.broadcast := congrArg Cond.broadcast hc
          exact ⟨m.broadcast, .done, .inr rfl,
            ⟨.done (by decide) rfl, hlocked, hunits, fun _ => hc', fun _ => hc'⟩, of_holding⟩
      | done _ hpc => cases hpc
  | quiet | nobody | one | all =>
      have hc : s.waiters.data = m.cond := hholds rfl
      exact ⟨m, u, .inl ⟨rfl, rfl⟩,
        ⟨hplays.notified, hlocked, hunits, fun _ => hc, fun _ => hc⟩, of_holding⟩
  | @drop c =>
      have hc : s.waiters.data = m.cond := hholds rfl
      refine ⟨m, u, .inl ⟨rfl, rfl⟩,
        ⟨hplays.dropped, hlocked, hunits, fun _ => hc, fun hb => ?_⟩, of_holding⟩
      cases c <;> cases hb
  | unlock =>
      cases hplays with
      | producer =>
          exact ⟨{ m with locked := false }, .producer .returned, .inr rfl,
            ⟨.producer, rfl, hunits, hfree, of_away⟩, fun _ _ => ⟨rfl, rfl⟩⟩
      | done _ hpc => cases hpc

/-- The clients' state that the threads show. -/
structure Shows (x : State) (y : CondClients.State) : Prop where
  length : y.threads.length = x.threads.length
  locked : y.shared.locked = x.shared.locked
  units : y.shared.units = x.shared.units
  free : x.shared.waiters.held = false → x.shared.waiters.data = y.shared.cond
  plays : ∀ (i : ℕ) (t : Thread) (u : Client), x.threads[i]? = some t →
    y.threads[i]? = some u → Plays t u ∧
      (t.phase.holds = true → Offset x.shared.waiters.data y.shared.cond t u)

namespace Shows
variable {x : State} {y : CondClients.State}

theorem client (h : Shows x y) {i : ℕ} {t : Thread} (ht : x.threads[i]? = some t) :
    ∃ u, y.threads[i]? = some u := by
  have hlt := (List.getElem?_eq_some_iff.mp ht).1
  exact ⟨_, List.getElem?_eq_getElem (h.length ▸ hlt)⟩

theorem entered (h : Shows x y) (r : Request) :
    Shows (threads.entered x r) (clients.entered y r) where
  length := by simp only [Program.entered, List.length_append, h.length, List.length_singleton]
  locked := h.locked
  units := h.units
  free := h.free
  plays := by
    intro i t u ht hu
    rcases getElem?_concat_cases ht with ht | ⟨hi, rfl⟩
    · rcases getElem?_concat_cases hu with hu | ⟨hi, rfl⟩
      · exact h.plays i t u ht hu
      · have hlt := (List.getElem?_eq_some_iff.mp ht).1
        have hlen := h.length
        omega
    · rcases getElem?_concat_cases hu with hu | ⟨_, rfl⟩
      · have hlt := (List.getElem?_eq_some_iff.mp hu).1
        have hlen := h.length
        omega
      · refine ⟨?_, fun hb => ?_⟩
        · cases r with
          | wait | consume => exact .lock
          | produce => exact .producer
          | signal => exact .enterSignal
          | broadcast => exact .enterBroadcast
        · cases r <;> cases hb

/-- After a step of thread `i` that its client follows. -/
theorem after (h : Shows x y) {i : ℕ} {t t' : Thread} {u' : Client} {s' : Monitor}
    {m' : CondClients.Monitor} (ht : x.threads[i]? = some t)
    (hagree : Agree s' t' m' u')
    (hother : ∀ (j : ℕ) (t₁ : Thread), j ≠ i → x.threads[j]? = some t₁ → t₁.phase.holds = true →
      s'.waiters.data = x.shared.waiters.data ∧ m'.cond = y.shared.cond) :
    Shows (x.after i (s', t', [])) (y.after i (m', u', [])) where
  length := by simp only [Config.after, List.append_nil, List.length_set, h.length]
  locked := hagree.locked
  units := hagree.units
  free := hagree.free
  plays := by
    intro j t₁ u₁ ht₁ hu₁
    obtain ⟨u, hu⟩ := h.client ht
    rcases Config.getElem?_after ht ht₁ with ⟨rfl, rfl⟩ | ⟨hji, ht₁⟩ | ⟨_, hnew⟩
    · rw [Config.getElem?_after_self hu, Option.some.injEq] at hu₁
      exact hu₁ ▸ ⟨hagree.plays, hagree.holds⟩
    · rcases Config.getElem?_after hu hu₁ with ⟨hji', _⟩ | ⟨_, hu₁⟩ | ⟨_, hnew⟩
      · exact (hji hji').elim
      · obtain ⟨hplays, hoff⟩ := h.plays j t₁ u₁ ht₁ hu₁
        refine ⟨hplays, fun hb => ?_⟩
        obtain ⟨hdata, hcond⟩ := hother j t₁ hji ht₁ hb
        simp only [Config.after, hdata, hcond]
        exact hoff hb
      · exact (List.not_mem_nil hnew).elim
    · exact (List.not_mem_nil hnew).elim

/-- A move of the threads is a move of the clients or shows nothing. -/
theorem fire {G : State → Move Request Choice → Prop} (h : Shows x y) (hx : Reached G x)
    {i : ℕ} {a : Choice} {x' : State} (hf : threads.fire x (.step i a) = some x') :
    Shows x' y ∨ ∃ y', clients.fire y (.step i ()) = some y' ∧ Shows x' y' := by
  obtain ⟨t, ⟨s', t', new⟩, ht, hn, rfl⟩ := threads.fire_step hf
  obtain ⟨hs, rfl⟩ := threads_step hn
  obtain ⟨u, hu⟩ := h.client ht
  have hsound := hx.sound
  have hphase {j : ℕ} {t₁ : Thread} (ht₁ : x.threads[j]? = some t₁) :
      (room x).threads[j]? = some t₁.phase := by
    simp only [room, Discipline.seen, List.getElem?_map, ht₁, Option.map_some]
  have hheld {j : ℕ} {t₁ : Thread} (ht₁ : x.threads[j]? = some t₁)
      (hb : t₁.phase.holds = true) : x.shared.waiters.held = true :=
    hsound.held_of_holds (List.mem_of_getElem? (hphase ht₁)) hb
  obtain ⟨hplays, hoff⟩ := h.plays i t u ht hu
  obtain ⟨m', u', hstep, hagree, hframe⟩ :=
    hs.agree ⟨hplays, h.locked, h.units, h.free, hoff⟩ (hheld ht)
  have hafter := h.after ht hagree fun j t₁ hji ht₁ hb => by
    refine hframe ?_ (hheld ht₁ hb)
    by_contra hbi
    exact hji (hsound.holder_unique (hphase ht₁) (hphase ht) hb (by simpa using hbi))
  rcases hstep with ⟨rfl, rfl⟩ | hnext
  · left
    have hsame : y.after i (y.shared, u', []) = y := by
      obtain ⟨hlt, rfl⟩ := List.getElem?_eq_some_iff.mp hu
      simp only [Config.after, List.append_nil, List.set_getElem_self]
    rwa [hsame] at hafter
  · right
    refine ⟨_, ?_, hafter⟩
    simp only [Program.fire, hu, clients, hnext, Option.map_some]

end Shows

/-- Every state that the threads reach shows one that the clients reach, with the same
calls. -/
theorem Reached.shows {G : State → Move Request Choice → Prop} {x : State} (h : Reached G x)
    (G' : CondClients.State → CondClients.Act → Prop)
    (call : ∀ x y r, Shows x y → G x (.call r) → G' y (.call r))
    (step : ∀ y i, G' y (.step i ())) : ∃ y, CondClients.Reached G' y ∧ Shows x y := by
  induction h with
  | init hx =>
      obtain ⟨n, rfl⟩ := hx
      exact ⟨⟨{ units := n }, []⟩, .init ⟨n, rfl⟩, rfl, rfl, rfl, fun _ => rfl, nofun⟩
  | @move x x' m hx hg hf ih =>
      obtain ⟨y, hy, hshows⟩ := ih
      cases m with
      | call r =>
          cases hf
          exact ⟨_, .move (.call r) hy (call _ _ _ hshows hg) rfl, hshows.entered r⟩
      | step i a =>
          rcases hshows.fire hx hf with hsame | ⟨y', hy', hshows'⟩
          · exact ⟨y, hy, hsame⟩
          · exact ⟨y', .move (.step i ()) hy (step y i) hy', hshows'⟩

/-- In every run of the threads, with spurious wake-ups and under any interleaving, the
state shows one that the clients reach: thread for client, the same lock and units, and
the same bookkeeping whenever the mutex is free. From there on each step of a thread is
one of its client or shows nothing. -/
theorem threads_refine_clients {x : State} (h : Reached (fun _ _ => True) x) :
    ∃ y, CondClients.Reached (fun _ _ => True) y ∧ Shows x y ∧
      ∀ i a x', threads.fire x (.step i a) = some x' →
        Shows x' y ∨ ∃ y', clients.fire y (.step i ()) = some y' ∧ Shows x' y' := by
  obtain ⟨y, hy, hshows⟩ := h.shows (fun _ _ => True) (fun _ _ _ _ _ => trivial)
    fun _ _ => trivial
  exact ⟨y, hy, hshows, fun i a x' hf => hshows.fire h hf⟩

/-- A token is out when a waiter comes: it has given the caller's lock back and still
holds the mutex, and its client has left already. -/
theorem threads_refine_clients_small :
    ∃ x, Reached (fun _ _ => True) x ∧ x.shared.waiters.data.tokens = 1 ∧
      ∃ y, CondClients.Reached (fun _ _ => True) y ∧ Shows x y := by
  obtain ⟨x, hx, hφ⟩ := Program.Reach.exists_of_run
    (P := threads) (I := Initial) (G := fun _ _ => True) (x := ⟨{}, []⟩)
    (m := [.call .wait, .step 0 .go, .step 0 .go, .step 0 .go, .step 0 .go, .step 0 .go,
      .call .signal, .step 1 .go, .step 1 .go, .step 1 (.notified 0), .step 1 .go, .call .wait,
      .step 2 .go, .step 2 .go, .step 2 .go, .step 2 .go])
    (φ := fun x => decide (x.shared.waiters.data.tokens = 1)) ⟨0, rfl⟩ (by decide)
  obtain ⟨y, hy, hshows, _⟩ := threads_refine_clients hx
  exact ⟨x, hx, of_decide_eq_true hφ, y, hy, hshows⟩

end AntsPool.CondThreads
