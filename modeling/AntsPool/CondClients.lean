import AntsPool.Cond
import AntsPool.Interleaving

/-!
# Clients of the condition variable

Any number of threads use one condition variable and the spin lock that goes with
it. A waiter takes the lock and waits once. A consumer takes a unit from a count
that the lock guards, and waits as long as there is none. A producer adds a unit and
signals before it unlocks. Signals and broadcasts are also issued without the lock.

The count is seen by the holder of the lock only, so a producer changes it in the
step in which it signals. `Notices` is history that no step reads.
-/
namespace AntsPool.CondClients
open Interleaving

/-- What was issued, and how the waiters fared since the latest broadcast. A waiter
is released by a broadcast that comes after its registration. -/
structure Notices where
  signals : ℕ := 0
  broadcasts : ℕ := 0
  /-- Waiters in the wait loop that are not released. -/
  current : ℕ := 0
  /-- Registrations since the latest broadcast. -/
  registered : ℕ := 0
  /-- Signals since the latest broadcast. -/
  signalled : ℕ := 0
  /-- Of these, the ones that found more current waiters than tokens. -/
  owed : ℕ := 0
  /-- Of these, the ones that found fewer signals than registrations. -/
  matched : ℕ := 0
  /-- Waiters registered since the latest broadcast that have left the loop. -/
  served : ℕ := 0
  /-- Waiters that the latest broadcast found in the loop. -/
  released : ℕ := 0
  /-- Of these, the ones that have left it. -/
  gone : ℕ := 0
deriving Repr, DecidableEq

namespace Notices

def issued (n : Notices) : ℕ := n.signals + n.broadcasts

end Notices

structure Monitor where
  cond : Cond := Cond.new
  locked : Bool := false
  units : ℕ := 0
  past : Notices := {}
deriving Repr, DecidableEq

/-- A registration: the generation to leave on, and for the history the broadcasts
and the notices issued and the tokens out at that time. -/
structure Ticket where
  generation : ℕ
  broadcasts : ℕ
  notices : ℕ
  tokens : ℕ
deriving Repr, DecidableEq

inductive ClientPc
  | lock
  | test (again : Bool)
  | wait
  | blocked (t : Ticket)
  | woken (t : Ticket) (notices : ℕ)
  | held
  | returned
deriving Repr, DecidableEq

inductive ProducerPc
  | lock
  | put
  | unlock
  | returned
deriving Repr, DecidableEq

inductive Client
  | waiter (consumes : Bool) (pc : ClientPc)
  | producer (pc : ProducerPc)
  | signal
  | broadcast
  | done
deriving Repr, DecidableEq

namespace Monitor

def signal (s : Monitor) : Monitor :=
  { s with
    cond := s.cond.signal
    past := { s.past with
      signals := s.past.signals + 1
      signalled := s.past.signalled + 1
      owed := s.past.owed + if s.cond.tokens < s.past.current then 1 else 0
      matched := s.past.matched + if s.past.signalled < s.past.registered then 1 else 0 } }

def broadcast (s : Monitor) : Monitor :=
  { s with
    cond := s.cond.broadcast
    past := { signals := s.past.signals
              broadcasts := s.past.broadcasts + 1
              released := s.cond.parked } }

/-- The ticket of a waiter that registers now. -/
def ticket (s : Monitor) : Ticket :=
  ⟨s.cond.generation, s.past.broadcasts, s.past.issued, s.cond.tokens⟩

/-- `Cond::wait` up to the first pass of its loop, which gives the lock back. -/
def wait (s : Monitor) : Monitor × ClientPc :=
  let c := s.cond.register
  let past := { s.past with registered := s.past.registered + 1 }
  match c.poll c.generation with
  | some c' =>
      ({ s with cond := c', locked := false, past := { past with served := past.served + 1 } },
        .woken s.ticket s.past.issued)
  | none =>
      ({ s with cond := c, locked := false, past := { past with current := past.current + 1 } },
        .blocked s.ticket)

/-- A waiter with ticket `t` leaves the loop, the condition variable being then `c`. -/
def leave (s : Monitor) (t : Ticket) (c : Cond) : Monitor :=
  { s with
    cond := c
    past :=
      if t.broadcasts = s.past.broadcasts then
        { s.past with current := s.past.current - 1, served := s.past.served + 1 }
      else { s.past with gone := s.past.gone + 1 } }

end Monitor

def Client.next (s : Monitor) : Client → Option (Monitor × Client)
  | .waiter consumes .lock =>
      if s.locked then none
      else
        some ({ s with locked := true },
          .waiter consumes (if consumes then .test false else .wait))
  | .waiter consumes (.test _) =>
      if 0 < s.units then
        some ({ s with units := s.units - 1, locked := false }, .waiter consumes .returned)
      else some (s, .waiter consumes .wait)
  | .waiter consumes .wait => some (s.wait.1, .waiter consumes s.wait.2)
  | .waiter consumes (.blocked t) =>
      (s.cond.poll t.generation).map fun c =>
        (s.leave t c, .waiter consumes (.woken t s.past.issued))
  | .waiter consumes (.woken _ _) =>
      if s.locked then none
      else
        some ({ s with locked := true },
          .waiter consumes (if consumes then .test true else .held))
  | .waiter consumes .held => some ({ s with locked := false }, .waiter consumes .returned)
  | .waiter _ .returned => none
  | .producer .lock => if s.locked then none else some ({ s with locked := true }, .producer .put)
  | .producer .put => some ({ s.signal with units := s.units + 1 }, .producer .unlock)
  | .producer .unlock => some ({ s with locked := false }, .producer .returned)
  | .producer .returned => none
  | .signal => some (s.signal, .done)
  | .broadcast => some (s.broadcast, .done)
  | .done => none

inductive Request
  | wait
  | consume
  | produce
  | signal
  | broadcast
deriving Repr, DecidableEq

def Request.start : Request → Client
  | .wait => .waiter false .lock
  | .consume => .waiter true .lock
  | .produce => .producer .lock
  | .signal => .signal
  | .broadcast => .broadcast

/-- The condition variable with all its clients. -/
def clients : Program Monitor Client Request Unit where
  start _ r := r.start
  next s _ t _ := (t.next s).map fun r => (r.1, r.2, [])

abbrev State := Interleaving.Config Monitor Client

abbrev Act := Interleaving.Move Request Unit

/-- A new condition variable, with some units and no client yet. -/
def Initial (x : State) : Prop := ∃ n, x = ⟨{ units := n }, []⟩

def noClients : State := ⟨{}, []⟩

/-- The states that the clients reach under the guard `G`. -/
abbrev Reached (G : State → Act → Prop) (x : State) : Prop := clients.Reach Initial G x

/-! ## What a step can do -/

inductive Client.Step (s : Monitor) : Client → Monitor → Client → Prop
  | lockTest (hl : s.locked = false) :
      Step s (.waiter true .lock) { s with locked := true } (.waiter true (.test false))
  | lockWait (hl : s.locked = false) :
      Step s (.waiter false .lock) { s with locked := true } (.waiter false .wait)
  | take {b again} (hu : 0 < s.units) :
      Step s (.waiter b (.test again)) { s with units := s.units - 1, locked := false }
        (.waiter b .returned)
  | empty {b again} (hu : s.units = 0) : Step s (.waiter b (.test again)) s (.waiter b .wait)
  | waitLeaves {b c} (ht : 0 < s.cond.tokens)
      (hp : s.cond.register.poll s.cond.generation = some c) :
      Step s (.waiter b .wait)
        { s with cond := c, locked := false,
                 past := { s.past with registered := s.past.registered + 1,
                                       served := s.past.served + 1 } }
        (.waiter b (.woken s.ticket s.past.issued))
  | waitBlocks {b} (ht : s.cond.tokens = 0) :
      Step s (.waiter b .wait)
        { s with cond := s.cond.register, locked := false,
                 past := { s.past with registered := s.past.registered + 1,
                                       current := s.past.current + 1 } }
        (.waiter b (.blocked s.ticket))
  | leave {b t c} (hp : s.cond.poll t.generation = some c) :
      Step s (.waiter b (.blocked t)) (s.leave t c) (.waiter b (.woken t s.past.issued))
  | wokenTest {t n} (hl : s.locked = false) :
      Step s (.waiter true (.woken t n)) { s with locked := true } (.waiter true (.test true))
  | wokenHeld {t n} (hl : s.locked = false) :
      Step s (.waiter false (.woken t n)) { s with locked := true } (.waiter false .held)
  | unhold {b} : Step s (.waiter b .held) { s with locked := false } (.waiter b .returned)
  | lockPut (hl : s.locked = false) :
      Step s (.producer .lock) { s with locked := true } (.producer .put)
  | put : Step s (.producer .put) { s.signal with units := s.units + 1 } (.producer .unlock)
  | unlock : Step s (.producer .unlock) { s with locked := false } (.producer .returned)
  | signal : Step s .signal s.signal .done
  | broadcast : Step s .broadcast s.broadcast .done

theorem Client.next_step {s : Monitor} {t : Client} {r : Monitor × Client}
    (h : t.next s = some r) : Client.Step s t r.1 r.2 := by
  cases t with
  | waiter b pc =>
      cases pc with
      | lock =>
          simp only [next] at h
          split at h
          · cases h
          · rename_i hl
            cases h
            cases b with
            | true => exact .lockTest (by simpa using hl)
            | false => exact .lockWait (by simpa using hl)
      | test again =>
          simp only [next] at h
          split at h
          · rename_i hu
            cases h
            exact .take hu
          · rename_i hu
            cases h
            exact .empty (by omega)
      | wait =>
          cases h
          cases hp : s.cond.register.poll s.cond.generation with
          | none =>
              have ht : s.cond.tokens = 0 := (Cond.poll_none hp).1
              simpa only [Monitor.wait, Cond.register_generation, hp] using Step.waitBlocks ht
          | some c =>
              have ht : 0 < s.cond.tokens := by
                obtain ⟨_, _, h | ⟨_, _, hg⟩⟩ := Cond.poll_some hp
                · exact h.1
                · exact (hg rfl).elim
              simpa only [Monitor.wait, Cond.register_generation, hp] using Step.waitLeaves ht hp
      | blocked t =>
          obtain ⟨c, hp, rfl⟩ := Option.map_eq_some_iff.mp h
          exact .leave hp
      | woken t n =>
          simp only [next] at h
          split at h
          · cases h
          · rename_i hl
            cases h
            cases b with
            | true => exact .wokenTest (by simpa using hl)
            | false => exact .wokenHeld (by simpa using hl)
      | held =>
          cases h
          exact .unhold
      | returned => cases h
  | producer pc =>
      cases pc with
      | lock =>
          simp only [next] at h
          split at h
          · cases h
          · rename_i hl
            cases h
            exact .lockPut (by simpa using hl)
      | put =>
          cases h
          exact .put
      | unlock =>
          cases h
          exact .unlock
      | returned => cases h
  | signal =>
      cases h
      exact .signal
  | broadcast =>
      cases h
      exact .broadcast
  | done => cases h

theorem clients_step {s : Monitor} {i : ℕ} {t : Client} {a : Unit}
    {r : Monitor × Client × List Client} (h : clients.next s i t a = some r) :
    Client.Step s t r.1 r.2.1 ∧ r.2.2 = [] := by
  obtain ⟨q, hq, rfl⟩ := Option.map_eq_some_iff.mp h
  exact ⟨Client.next_step hq, rfl⟩

/-! ## Rules for the reached states -/

namespace Client

/-- The ticket of a waiter in the loop. -/
def ticket : Client → Option Ticket
  | .waiter _ (.blocked t) => some t
  | _ => none

def blocked (t : Client) : Bool := t.ticket.isSome

theorem blocked_iff {t : Client} : t.blocked = true ↔ ∃ k, t.ticket = some k :=
  Option.isSome_iff_exists

/-- A waiter in the loop with no broadcast since it registered. -/
def isCurrent (broadcasts : ℕ) (t : Client) : Bool :=
  t.ticket.any fun k => k.broadcasts == broadcasts

def holdsLock : Client → Bool
  | .waiter _ (.test _) | .waiter _ .wait | .waiter _ .held | .producer .put | .producer .unlock =>
      true
  | _ => false

end Client

namespace Reached
variable {G : State → Act → Prop} {x : State}

/-- An invariant of the states, from the steps of the clients. -/
theorem invariant {J : State → Prop} (init : ∀ n, J ⟨{ units := n }, []⟩)
    (call : ∀ x r, Reached G x → J x → G x (.call r) → J ⟨x.shared, x.threads ++ [r.start]⟩)
    (step : ∀ x i t s' t', Reached G x → J x → G x (.step i ()) → x.threads[i]? = some t →
      Client.Step x.shared t s' t' → J (x.after i (s', t', [])))
    (h : Reached G x) : J x := by
  refine Program.Reach.invariant ?_ call ?_ h
  · rintro y ⟨n, rfl⟩
    exact init n
  · rintro y i ⟨⟩ t ⟨s', t', new⟩ hr hy hg ht hn
    obtain ⟨hs, rfl⟩ := clients_step hn
    exact step y i t s' t' hr hy hg ht hs

/-- An invariant of the shared state with a property of every client. -/
theorem invariant_clients {J : Monitor → Prop} {φ : Monitor → Client → Prop}
    (init : ∀ n, J { units := n })
    (call : ∀ x r, Reached G x → J x.shared → G x (.call r) → φ x.shared r.start)
    (step : ∀ x i t s' t', Reached G x → J x.shared → (∀ u ∈ x.threads, φ x.shared u) →
      G x (.step i ()) → x.threads[i]? = some t → Client.Step x.shared t s' t' →
      J s' ∧ φ s' t' ∧ ∀ j u, j ≠ i → x.threads[j]? = some u → φ s' u)
    (h : Reached G x) : J x.shared ∧ ∀ u ∈ x.threads, φ x.shared u := by
  have hall := Program.Reach.invariant_threads (J := J) (φ := fun s _ t => φ s t) ?_ ?_ ?_ h
  · refine ⟨hall.1, fun u hu => ?_⟩
    obtain ⟨i, hi⟩ := List.mem_iff_getElem?.mp hu
    exact hall.2 i u hi
  · rintro y ⟨n, rfl⟩
    exact ⟨init n, fun i t ht => by simp at ht⟩
  · exact call
  · rintro y i ⟨⟩ t ⟨s', t', new⟩ hr hy hall hg ht hn
    obtain ⟨hs, rfl⟩ := clients_step hn
    obtain ⟨hJ, hself, hother⟩ := step y i t s' t' hr hy (fun u hu => by
      obtain ⟨j, hj⟩ := List.mem_iff_getElem?.mp hu
      exact hall j u hj) hg ht hs
    exact ⟨hJ, hself, nofun, hother⟩

end Reached

/-- A ledger is kept when the steps of the clients keep it. -/
theorem kept_of_steps {L : Ledger Monitor Client} {V : Monitor → Client → Prop}
    (start : ∀ r, L.carried (Request.start r) = 0)
    (next : ∀ s t s' t', V s t → Client.Step s t s' t' →
      L.held s' + L.carried t' = L.held s + L.carried t) : L.Kept clients V where
  start _ r := start r
  next s i t a r hV hn := by
    obtain ⟨hs, hnew⟩ := clients_step hn
    rw [hnew, ListTotals.total_nil, add_zero]
    exact next s t r.1 r.2.1 hV hs

def lockLedger : Ledger Monitor Client :=
  .counting (fun s => if s.locked then 1 else 0) Client.holdsLock

def parkedLedger : Ledger Monitor Client := .counting (fun s => s.cond.parked) Client.blocked

theorem lockLedger_kept :
    lockLedger.Kept clients (fun s t => t.holdsLock = true → s.locked = true) := by
  refine kept_of_steps ?_ ?_
  · intro r
    cases r <;> rfl
  · intro s t s' t' hV h
    cases h with
    | lockTest hl | lockWait hl | wokenTest hl | wokenHeld hl | lockPut hl =>
        simp [lockLedger, Ledger.counting, Client.holdsLock, hl]
    | take | waitLeaves | waitBlocks | unhold | unlock =>
        simp [lockLedger, Ledger.counting, Client.holdsLock, hV rfl]
    | _ => rfl

theorem parkedLedger_kept :
    parkedLedger.Kept clients (fun s t => t.blocked = true → 0 < s.cond.parked) := by
  refine kept_of_steps ?_ ?_
  · intro r
    cases r <;> rfl
  · intro s t s' t' hV h
    cases h with
    | waitLeaves ht hp =>
        have hparked := (Cond.poll_some hp).2.1
        simp [parkedLedger, Ledger.counting, Client.blocked, Client.ticket, hparked]
    | waitBlocks => simp [parkedLedger, Ledger.counting, Client.blocked, Client.ticket]
    | leave hp =>
        have hparked := (Cond.poll_some hp).2.1
        have hpos := hV rfl
        simp only [parkedLedger, Ledger.counting, Client.blocked, Client.ticket, Monitor.leave,
          hparked, Option.isSome_some, Option.isSome_none, if_true, Bool.false_eq_true, if_false]
        omega
    | put | signal => simp [parkedLedger, Ledger.counting, Client.blocked, Client.ticket,
        Monitor.signal]
    | broadcast => simp [parkedLedger, Ledger.counting, Client.blocked, Client.ticket,
        Monitor.broadcast]
    | _ => rfl

namespace Reached
variable {G : State → Act → Prop} {x : State}

theorem lock_eq (h : Reached G x) :
    (if x.shared.locked then 1 else 0 : ℤ) = x.threads.countP Client.holdsLock := by
  refine lockLedger_kept.count_eq ?_ ?_ h
  · intro y _ hy t ht hlock
    have hpos := List.countP_pos_iff.mpr ⟨t, ht, hlock⟩
    by_contra hn
    simp only [hn, if_false] at hy
    omega
  · rintro y ⟨n, rfl⟩
    exact ⟨rfl, nofun⟩

/-- No two clients are inside a critical section. -/
theorem holder_unique (h : Reached G x) {i j : ℕ} {t u : Client} (hi : x.threads[i]? = some t)
    (hj : x.threads[j]? = some u) (ht : t.holdsLock = true) (hu : u.holdsLock = true) : i = j := by
  by_contra hij
  have htwo := ListTotals.add_le_total (f := fun t : Client => if t.holdsLock then 1 else 0)
    (fun t => by split <;> omega) hij hi hj
  have heq := h.lock_eq
  rw [← ListTotals.total_indicator] at heq
  simp only [ht, hu, if_true] at htwo
  split at heq <;> omega

/-- `parked` counts the waiters in the loop. -/
theorem parked_eq (h : Reached G x) : x.shared.cond.parked = x.threads.countP Client.blocked := by
  have heq : (x.shared.cond.parked : ℤ) = x.threads.countP Client.blocked := by
    refine parkedLedger_kept.count_eq ?_ ?_ h
    · intro y _ hy t ht hb
      have hpos := List.countP_pos_iff.mpr ⟨t, ht, hb⟩
      omega
    · rintro y ⟨n, rfl⟩
      exact ⟨rfl, nofun⟩
  exact_mod_cast heq

theorem parked_pos (h : Reached G x) {t : Client} (ht : t ∈ x.threads) {k : Ticket}
    (hk : t.ticket = some k) : 0 < x.shared.cond.parked := by
  rw [h.parked_eq]
  exact List.countP_pos_iff.mpr ⟨t, ht, Client.blocked_iff.mpr ⟨k, hk⟩⟩

/-- While `parked` is positive there is a waiter in the loop. -/
theorem exists_parked (h : Reached G x) (hpos : 0 < x.shared.cond.parked) :
    ∃ t ∈ x.threads, ∃ k, t.ticket = some k := by
  rw [h.parked_eq] at hpos
  obtain ⟨t, ht, hblocked⟩ := List.countP_pos_iff.mp hpos
  exact ⟨t, ht, Client.blocked_iff.mp hblocked⟩

end Reached

namespace Client

/-- Only a registration leaves the client with a ticket, and it is the one of the
current generation. -/
theorem Step.ticket {s s' : Monitor} {t t' : Client} (h : Client.Step s t s' t') {k : Ticket}
    (hk : t'.ticket = some k) : k = s.ticket ∧ s'.cond = s.cond.register := by
  cases h with
  | waitBlocks ht =>
      cases hk
      exact ⟨rfl, rfl⟩
  | _ => cases hk

/-- Only a broadcast changes the generation and is counted as one. -/
theorem Step.broadcast_cases {s s' : Monitor} {t t' : Client} (h : Client.Step s t s' t') :
    (t = .broadcast ∧ t' = .done ∧ s' = s.broadcast) ∨
      (t ≠ .broadcast ∧ s'.cond.generation = s.cond.generation ∧
        s'.past.broadcasts = s.past.broadcasts) := by
  cases h with
  | broadcast => exact .inl ⟨rfl, rfl, rfl⟩
  | waitLeaves ht hp => exact .inr ⟨nofun, (Cond.poll_some hp).1, rfl⟩
  | leave hp =>
      refine .inr ⟨nofun, (Cond.poll_some hp).1, ?_⟩
      simp only [Monitor.leave]
      split <;> rfl
  | put | signal => exact .inr ⟨nofun, Cond.signal_generation _, rfl⟩
  | _ => exact .inr ⟨nofun, rfl, rfl⟩

end Client

namespace Reached
variable {G : State → Act → Prop} {x : State}

/-- A waiter in the loop has seen the generation move on once for every broadcast
since it registered. -/
theorem ticket_generation (h : Reached G x) :
    x.shared.cond.generation < 2 ^ 64 ∧ ∀ u ∈ x.threads, ∀ k, u.ticket = some k →
      k.broadcasts ≤ x.shared.past.broadcasts ∧ k.generation < 2 ^ 64 ∧
        x.shared.cond.generation =
          (k.generation + (x.shared.past.broadcasts - k.broadcasts)) % 2 ^ 64 := by
  refine invariant_clients (J := fun s => s.cond.generation < 2 ^ 64)
    (φ := fun s u => ∀ k, u.ticket = some k → k.broadcasts ≤ s.past.broadcasts ∧
      k.generation < 2 ^ 64 ∧
        s.cond.generation = (k.generation + (s.past.broadcasts - k.broadcasts)) % 2 ^ 64)
    ?_ ?_ ?_ h
  · intro n
    exact Nat.two_pow_pos 64
  · intro y r _ _ _ k hk
    cases r <;> cases hk
  · intro y i t s' t' hr hlt hall _ ht hs
    rcases hs.broadcast_cases with ⟨rfl, rfl, rfl⟩ | ⟨_, hgen, hcount⟩
    · refine ⟨?_, nofun, fun j u _ hu k hk => ?_⟩
      · simp only [Monitor.broadcast, Cond.broadcast]
        split
        · exact Nat.mod_lt _ (Nat.two_pow_pos 64)
        · exact hlt
      · obtain ⟨hle, hk64, hmod⟩ := hall u (List.mem_of_getElem? hu) k hk
        have hpos := hr.parked_pos (List.mem_of_getElem? hu) hk
        refine ⟨hle.trans (Nat.le_succ _), hk64, ?_⟩
        simp only [Monitor.broadcast, Cond.broadcast, hpos, if_true, Cond.nextGeneration]
        rw [hmod, Nat.mod_add_mod]
        congr 1
        omega
    · rw [hgen, hcount]
      refine ⟨hlt, fun k hk => ?_, fun j u _ hu => hall u (List.mem_of_getElem? hu)⟩
      obtain ⟨rfl, _⟩ := hs.ticket hk
      refine ⟨le_rfl, hlt, ?_⟩
      simp only [Monitor.ticket, Nat.sub_self, Nat.add_zero, Nat.mod_eq_of_lt hlt]

theorem generation_of_current (h : Reached G x) {u : Client} (hu : u ∈ x.threads) {k : Ticket}
    (hk : u.ticket = some k) (hb : k.broadcasts = x.shared.past.broadcasts) :
    x.shared.cond.generation = k.generation := by
  obtain ⟨_, hlt, hmod⟩ := h.ticket_generation.2 u hu k hk
  rw [hmod, hb, Nat.sub_self, Nat.add_zero, Nat.mod_eq_of_lt hlt]

end Reached

/-- The waiters in the loop have seen fewer than `2 ^ 64` broadcasts. -/
def unwrapped (x : State) : Act → Prop
  | .step i () => ∀ t ∈ x.threads[i]?, t = .broadcast → ∀ u ∈ x.threads, ∀ k ∈ u.ticket,
      x.shared.past.broadcasts + 1 - k.broadcasts < 2 ^ 64
  | .call _ => True

instance (x : State) : (m : Act) → Decidable (unwrapped x m)
  | .step i () => inferInstanceAs (Decidable (∀ t ∈ x.threads[i]?, t = .broadcast →
      ∀ u ∈ x.threads, ∀ k ∈ u.ticket, x.shared.past.broadcasts + 1 - k.broadcasts < 2 ^ 64))
  | .call _ => inferInstanceAs (Decidable True)

namespace Reached
variable {G : State → Act → Prop} {x : State}

/-- Before the generation has come round, a waiter finds it outdated exactly when a
broadcast came after its registration. -/
theorem generation_iff (hG : ∀ x m, G x m → unwrapped x m) (h : Reached G x) {u : Client}
    (hu : u ∈ x.threads) {k : Ticket} (hk : u.ticket = some k) :
    x.shared.cond.generation = k.generation ↔ k.broadcasts = x.shared.past.broadcasts := by
  refine ⟨fun hgen => ?_, h.generation_of_current hu hk⟩
  have hfew := (invariant_clients (J := fun _ => True)
    (φ := fun s u => ∀ k, u.ticket = some k → s.past.broadcasts - k.broadcasts < 2 ^ 64)
    (fun _ => trivial) ?_ ?_ h).2 u hu k hk
  · obtain ⟨hle, hlt, hmod⟩ := h.ticket_generation.2 u hu k hk
    omega
  · intro y r _ _ _ k hk
    cases r <;> cases hk
  · intro y i t s' t' _ _ hall hg ht hs
    rcases hs.broadcast_cases with ⟨rfl, rfl, rfl⟩ | ⟨_, _, hcount⟩
    · refine ⟨trivial, nofun, fun j u _ hu k hk => ?_⟩
      exact hG _ _ hg _ ht rfl u (List.mem_of_getElem? hu) k hk
    · rw [hcount]
      refine ⟨trivial, fun k hk => ?_, fun j u _ hu => hall u (List.mem_of_getElem? hu)⟩
      obtain ⟨rfl, _⟩ := hs.ticket hk
      simp [Monitor.ticket]

end Reached

/-- How the counts of the history and of the condition variable go together. -/
structure Tally (s : Monitor) : Prop where
  tokens_le : s.cond.tokens ≤ s.cond.parked
  served : s.past.current + s.past.served = s.past.registered
  signalled : s.cond.tokens + s.past.served ≤ s.past.signalled
  released : s.past.released + s.past.current = s.past.gone + s.cond.parked

/-- A step keeps the tally; a waiter that leaves the loop is counted in it, and if it
is current it leaves on a token. -/
theorem Tally.step {s s' : Monitor} {t t' : Client} (h : Tally s) (hs : Client.Step s t s' t')
    (hleave : ∀ k, t.ticket = some k → 0 < s.cond.parked ∧
      (k.broadcasts = s.past.broadcasts → 0 < s.past.current ∧ s.cond.generation = k.generation)) :
    Tally s' := by
  obtain ⟨htok, hserved, hsig, hrel⟩ := h
  cases hs with
  | waitLeaves ht hp =>
      obtain ⟨_, hparked, htokens⟩ := Cond.poll_some hp
      simp only [Cond.register_parked, Cond.register_tokens, Nat.add_sub_cancel] at hparked htokens
      replace htokens := htokens.resolve_right fun h => by omega
      constructor <;> simp only [hparked, htokens.2] <;> omega
  | waitBlocks ht =>
      constructor <;> simp only [Cond.register_parked, Cond.register_tokens] <;> omega
  | @leave b k c hp =>
      obtain ⟨_, hparked, htokens⟩ := Cond.poll_some hp
      obtain ⟨hpos, hcur⟩ := hleave k rfl
      simp only [Monitor.leave]
      split_ifs with hb
      · obtain ⟨hcurrent, hgen⟩ := hcur hb
        rcases htokens with ⟨ht, htokens⟩ | ⟨_, _, hne⟩
        · constructor <;> simp only [hparked, htokens] <;> omega
        · exact (hne hgen).elim
      · rcases htokens with ⟨_, htokens⟩ | ⟨_, htokens, _⟩ <;>
          constructor <;> simp only [hparked, htokens] <;> omega
  | put | signal =>
      rcases s.cond.signal_tokens with ⟨hlt, htokens⟩ | ⟨hle, htokens⟩ <;>
        constructor <;>
        simp only [Monitor.signal, Cond.signal_parked, htokens] <;> omega
  | broadcast =>
      have htokens : s.cond.broadcast.tokens = 0 := by
        unfold Cond.broadcast
        split
        · rfl
        · omega
      constructor <;>
        simp only [Monitor.broadcast, Cond.broadcast_parked, htokens] <;> omega
  | _ => exact ⟨htok, hserved, hsig, hrel⟩

theorem Client.isCurrent_iff {b : ℕ} {t : Client} :
    t.isCurrent b = true ↔ ∃ k, t.ticket = some k ∧ k.broadcasts = b := by
  simp only [isCurrent, Option.any_eq_true, beq_iff_eq]

/-- Apart from a broadcast, `current` follows the stepping client. -/
theorem Client.Step.current {s s' : Monitor} {t t' : Client} (hs : Client.Step s t s' t')
    (hne : t ≠ .broadcast) (hpos : t.isCurrent s.past.broadcasts = true → 0 < s.past.current) :
    (s'.past.current : ℤ) + (if t.isCurrent s.past.broadcasts then 1 else 0) =
      s.past.current + (if t'.isCurrent s.past.broadcasts then 1 else 0) := by
  cases hs with
  | waitBlocks => simp [Client.isCurrent, Client.ticket, Monitor.ticket]
  | @leave b k c hp =>
      by_cases hb : k.broadcasts = s.past.broadcasts
      · have hpos := hpos (isCurrent_iff.mpr ⟨k, rfl, hb⟩)
        simp only [Client.isCurrent, Client.ticket, Monitor.leave, hb, Option.any_some,
          Option.any_none, beq_self_eq_true, if_true, Bool.false_eq_true, if_false]
        omega
      · simp [Client.isCurrent, Client.ticket, Monitor.leave, hb]
  | broadcast => exact (hne rfl).elim
  | _ => rfl

namespace Reached
variable {G : State → Act → Prop} {x : State}

/-- `current` counts the waiters in the loop that no broadcast has released. -/
theorem current_eq (h : Reached G x) :
    x.shared.past.current = x.threads.countP (Client.isCurrent x.shared.past.broadcasts) := by
  refine invariant (J := fun x => x.shared.past.current =
    x.threads.countP (Client.isCurrent x.shared.past.broadcasts)) ?_ ?_ ?_ h
  · intro n
    rfl
  · intro y r _ hy _
    rw [List.countP_append, hy]
    cases r <;> rfl
  · intro y i t s' t' hr hy _ ht hs
    rcases hs.broadcast_cases with ⟨rfl, rfl, rfl⟩ | ⟨hne, _, hcount⟩
    · -- the tickets in the loop were all given out before this broadcast
      refine (List.countP_eq_zero.mpr fun u hu hcur => ?_).symm
      obtain ⟨k, hk, hb⟩ := Client.isCurrent_iff.mp hcur
      rcases Config.mem_after hu with hu | rfl | hu
      · have hle := (hr.ticket_generation.2 u hu k hk).1
        change k.broadcasts = y.shared.past.broadcasts + 1 at hb
        omega
      · cases hk
      · cases hu
    · have hstep := hs.current hne fun hcur => by
        rw [hy]
        exact List.countP_pos_iff.mpr ⟨t, List.mem_of_getElem? ht, hcur⟩
      have hafter := Config.countP_after (Client.isCurrent y.shared.past.broadcasts) ht
        (r := (s', t', [])) nofun
      change s'.past.current = (y.after i (s', t', [])).threads.countP
        (Client.isCurrent s'.past.broadcasts)
      rw [hcount]
      simp only at hafter
      omega

theorem current_le_parked (h : Reached G x) : x.shared.past.current ≤ x.shared.cond.parked := by
  rw [h.current_eq, h.parked_eq]
  refine List.countP_mono_left fun u _ hcur => ?_
  obtain ⟨k, hk, _⟩ := Client.isCurrent_iff.mp hcur
  exact Client.blocked_iff.mpr ⟨k, hk⟩

theorem current_pos (h : Reached G x) {u : Client} (hu : u ∈ x.threads) {k : Ticket}
    (hk : u.ticket = some k) (hb : k.broadcasts = x.shared.past.broadcasts) :
    0 < x.shared.past.current := by
  rw [h.current_eq]
  exact List.countP_pos_iff.mpr ⟨u, hu, Client.isCurrent_iff.mpr ⟨k, hk, hb⟩⟩

theorem tally (h : Reached G x) : Tally x.shared := by
  refine invariant (J := fun x => Tally x.shared) ?_ ?_ ?_ h
  · exact fun n => ⟨le_rfl, rfl, le_rfl, rfl⟩
  · exact fun _ _ _ hy _ => hy
  · intro y i t s' t' hr hy _ ht hs
    have hmem := List.mem_of_getElem? ht
    exact hy.step hs fun k hk => ⟨hr.parked_pos hmem hk, fun hb =>
      ⟨hr.current_pos hmem hk hb, hr.generation_of_current hmem hk hb⟩⟩

end Reached

end AntsPool.CondClients
