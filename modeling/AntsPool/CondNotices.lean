import AntsPool.CondClients

/-!
# Notices and returns

A signal leaves a token and does not say for whom. A newcomer may find it at the
first pass of its loop, and a waiter that a broadcast has already released may take
it on the way out.
-/
namespace AntsPool.CondClients
open Interleaving

/-! ## A wait and the notices after it -/

/-- A step issues notices or leaves the tokens and the generation no nearer to
releasing a waiter. -/
theorem Client.Step.issued {s s' : Monitor} {t t' : Client} (h : Client.Step s t s' t') :
    s.past.issued < s'.past.issued ∨ (s'.past.issued = s.past.issued ∧
      s'.cond.tokens ≤ s.cond.tokens ∧ s'.cond.generation = s.cond.generation) := by
  cases h with
  | put | signal =>
      left
      simp only [Monitor.signal, Notices.issued]
      omega
  | broadcast =>
      left
      simp only [Monitor.broadcast, Notices.issued]
      omega
  | waitLeaves ht hp =>
      obtain ⟨hgen, _, htokens⟩ := Cond.poll_some hp
      simp only [Cond.register_generation, Cond.register_tokens] at hgen htokens
      exact .inr ⟨rfl, by simp only; omega, hgen⟩
  | leave hp =>
      obtain ⟨hgen, _, htokens⟩ := Cond.poll_some hp
      refine .inr ⟨?_, by simp only [Monitor.leave]; omega, hgen⟩
      simp only [Monitor.leave]
      split <;> rfl
  | _ => exact .inr ⟨rfl, le_rfl, rfl⟩

/-- What a waiter has seen of the notices: one in the loop found no token, and while
none is issued it can not leave. One that has left came after a notice exactly when
it found no token. -/
def Client.Attentive (s : Monitor) : Client → Prop
  | .waiter _ (.blocked t) => t.tokens = 0 ∧ t.notices ≤ s.past.issued ∧
      (s.past.issued = t.notices → s.cond.tokens = 0 ∧ s.cond.generation = t.generation)
  | .waiter _ (.woken t n) => t.notices < n ↔ t.tokens = 0
  | _ => True

theorem Client.Step.attentive {s s' : Monitor} {t t' : Client} (h : Client.Step s t s' t')
    (ht : t.Attentive s) : t'.Attentive s' := by
  cases h with
  | waitLeaves htokens =>
      simp only [Attentive, Monitor.ticket]
      omega
  | waitBlocks htokens => exact ⟨htokens, le_rfl, fun _ => ⟨htokens, rfl⟩⟩
  | leave hp =>
      obtain ⟨hzero, hle, hnone⟩ := ht
      refine ⟨fun _ => hzero, fun _ => lt_of_le_of_ne hle fun heq => ?_⟩
      obtain ⟨htokens, hgen⟩ := hnone heq.symm
      obtain ⟨_, _, h | ⟨_, _, hne⟩⟩ := Cond.poll_some hp
      · omega
      · exact hne hgen
  | _ => trivial

theorem Client.Attentive.frame {s s' : Monitor} {t t' u : Client} (hs : Client.Step s t s' t')
    (hu : u.Attentive s) : u.Attentive s' := by
  unfold Attentive at *
  split at hu
  · obtain ⟨hzero, hle, hnone⟩ := hu
    rcases hs.issued with hlt | ⟨heq, htokens, hgen⟩
    · exact ⟨hzero, by omega, fun h => by omega⟩
    · rw [heq, hgen]
      refine ⟨hzero, hle, fun h => ?_⟩
      obtain ⟨hnotoken, hsame⟩ := hnone h
      exact ⟨by omega, hsame⟩
  · exact hu
  · trivial

/-- In every run, a wait that has returned came after a notice issued since it
registered exactly when it found no token at its registration. -/
theorem notified_iff_no_token {x : State} (h : Reached (fun _ _ => True) x) {b : Bool}
    {t : Ticket} {n : ℕ} (hu : .waiter b (.woken t n) ∈ x.threads) :
    t.notices < n ↔ t.tokens = 0 := by
  refine (Reached.invariant_clients (J := fun _ => True) (φ := Client.Attentive)
    (fun _ => trivial) ?_ ?_ h).2 _ hu
  · intro y r _ _ _
    cases r <;> trivial
  · intro y i t s' t' _ _ hall _ ht hs
    exact ⟨trivial, hs.attentive (hall t (List.mem_of_getElem? ht)),
      fun j u _ hu => (hall u (List.mem_of_getElem? hu)).frame hs⟩

/-- A waiter is signalled and leaves. -/
theorem notified_iff_no_token_small :
    ∃ x, Reached (fun _ _ => True) x ∧ ∃ b t n, .waiter b (.woken t n) ∈ x.threads ∧
      (t.notices < n ↔ t.tokens = 0) := by
  obtain ⟨x, hx, hφ⟩ := Program.Reach.exists_of_run
    (P := clients) (I := Initial) (G := fun _ _ => True) (x := noClients)
    (m := [.call .wait, .step 0 (), .step 0 (), .call .signal, .step 1 (), .step 0 ()])
    (φ := fun x => decide (.waiter false (.woken ⟨0, 0, 0, 0⟩ 1) ∈ x.threads)) ⟨0, rfl⟩ (by decide)
  have hu := of_decide_eq_true hφ
  exact ⟨x, hx, false, ⟨0, 0, 0, 0⟩, 1, hu, notified_iff_no_token hx hu⟩

/-- A waiter is signalled, and a second one that waits after the signal leaves at once
on its token while the first stays blocked. -/
theorem newcomer_leaves_unnotified :
    ∃ x, Reached (fun _ _ => True) x ∧
      (∃ b t n, .waiter b (.woken t n) ∈ x.threads ∧ ¬ t.notices < n) ∧
      ∃ u ∈ x.threads, ∃ k, u.ticket = some k ∧ x.shared.cond.poll k.generation = none := by
  obtain ⟨x, hx, hφ⟩ := Program.Reach.exists_of_run
    (P := clients) (I := Initial) (G := fun _ _ => True) (x := noClients)
    (m := [.call .wait, .step 0 (), .step 0 (), .call .signal, .step 1 (), .call .wait,
      .step 2 (), .step 2 ()])
    (φ := fun x => decide (.waiter false (.woken ⟨0, 0, 1, 1⟩ 1) ∈ x.threads ∧
      .waiter false (.blocked ⟨0, 0, 0, 0⟩) ∈ x.threads ∧ x.shared.cond.poll 0 = none))
    ⟨0, rfl⟩ (by decide)
  obtain ⟨hwoken, hblocked, hpoll⟩ := of_decide_eq_true hφ
  exact ⟨x, hx, ⟨false, _, 1, hwoken, lt_irrefl 1⟩, _, hblocked, _, rfl, hpoll⟩

/-! ## The signals after a broadcast -/

/-- The clients whose next step is a call of `signal`. -/
def Client.signals : Client → Bool
  | .producer .put | .signal => true
  | _ => false

/-- No signal is issued while waiters that a broadcast has released are in the loop
beside others, and no waiter sees `2 ^ 64` broadcasts. -/
def signalsApart (x : State) : Act → Prop
  | .step i () => unwrapped x (.step i ()) ∧ ∀ t ∈ x.threads[i]?, t.signals = true →
      (∀ u ∈ x.threads, ∀ k ∈ u.ticket, k.broadcasts = x.shared.past.broadcasts) ∨
        ∀ u ∈ x.threads, ∀ k ∈ u.ticket, k.broadcasts ≠ x.shared.past.broadcasts
  | .call _ => True

instance (x : State) : (m : Act) → Decidable (signalsApart x m)
  | .step i () => inferInstanceAs (Decidable (unwrapped x (.step i ()) ∧
      ∀ t ∈ x.threads[i]?, t.signals = true →
        (∀ u ∈ x.threads, ∀ k ∈ u.ticket, k.broadcasts = x.shared.past.broadcasts) ∨
          ∀ u ∈ x.threads, ∀ k ∈ u.ticket, k.broadcasts ≠ x.shared.past.broadcasts))
  | .call _ => inferInstanceAs (Decidable True)

theorem unwrapped_of_signalsApart {x : State} {m : Act} (h : signalsApart x m) :
    unwrapped x m := by
  cases m with
  | call r => trivial
  | step i a => exact h.1

namespace Reached
variable {G : State → Act → Prop} {x : State}

theorem parked_eq_current (h : Reached G x) (hall : ∀ u ∈ x.threads, ∀ k, u.ticket = some k →
    k.broadcasts = x.shared.past.broadcasts) : x.shared.cond.parked = x.shared.past.current := by
  rw [h.parked_eq, h.current_eq]
  refine List.countP_congr fun u hu => ⟨fun hblocked => ?_, fun hcur => ?_⟩
  · obtain ⟨k, hk⟩ := Client.blocked_iff.mp hblocked
    exact Client.isCurrent_iff.mpr ⟨k, hk, hall u hu k hk⟩
  · obtain ⟨k, hk, _⟩ := Client.isCurrent_iff.mp hcur
    exact Client.blocked_iff.mpr ⟨k, hk⟩

theorem current_eq_zero (h : Reached G x) (hall : ∀ u ∈ x.threads, ∀ k, u.ticket = some k →
    k.broadcasts ≠ x.shared.past.broadcasts) : x.shared.past.current = 0 := by
  rw [h.current_eq]
  refine List.countP_eq_zero.mpr fun u hu hcur => ?_
  obtain ⟨k, hk, hb⟩ := Client.isCurrent_iff.mp hcur
  exact hall u hu k hk hb

/-- A released waiter in the loop is parked and not current. -/
theorem current_lt_parked (h : Reached G x) {u : Client} (hu : u ∈ x.threads) {k : Ticket}
    (hk : u.ticket = some k) (hb : k.broadcasts ≠ x.shared.past.broadcasts) :
    x.shared.past.current < x.shared.cond.parked := by
  have hsplit := ListTotals.countP_and_not (p := Client.blocked)
    (q := Client.isCurrent x.shared.past.broadcasts) x.threads fun v _ hcur => by
      obtain ⟨c, hc, _⟩ := Client.isCurrent_iff.mp hcur
      exact Client.blocked_iff.mpr ⟨c, hc⟩
  have hpos : 0 < x.threads.countP fun v =>
      v.blocked && !v.isCurrent x.shared.past.broadcasts := by
    refine List.countP_pos_iff.mpr ⟨u, hu, ?_⟩
    simp [Client.blocked, Client.isCurrent, hk, hb]
  rw [h.parked_eq, h.current_eq]
  omega

end Reached

/-- While both kinds of waiters are in the loop no token is out. -/
def Apart (s : Monitor) : Prop :=
  s.past.current = 0 ∨ s.cond.parked = s.past.current ∨ s.cond.tokens = 0

theorem Apart.step {s s' : Monitor} {t t' : Client} (h : Apart s) (hs : Client.Step s t s' t')
    (hreleased : ∀ k, t.ticket = some k → k.broadcasts ≠ s.past.broadcasts →
      s.past.current < s.cond.parked)
    (hsignals : t.signals = true → s.cond.parked = s.past.current ∨ s.past.current = 0) :
    Apart s' := by
  unfold Apart at *
  cases hs with
  | waitLeaves ht hp =>
      obtain ⟨_, hparked, _⟩ := Cond.poll_some hp
      simp only [Cond.register_parked, Nat.add_sub_cancel] at hparked
      simp only [hparked]
      omega
  | waitBlocks ht => exact .inr (.inr ht)
  | @leave b k c hp =>
      obtain ⟨_, hparked, htokens⟩ := Cond.poll_some hp
      simp only [Monitor.leave]
      split_ifs with hb
      · simp only [hparked]
        omega
      · -- beside a released waiter the second case is out
        have hlt := hreleased k rfl hb
        simp only
        omega
  | put | signal =>
      have hkind := hsignals rfl
      simp only [Monitor.signal, Cond.signal_parked]
      omega
  | broadcast => exact .inl rfl
  | _ => exact h

theorem Reached.apart {x : State} (h : Reached signalsApart x) : Apart x.shared := by
  refine Reached.invariant (J := fun x => Apart x.shared) ?_ ?_ ?_ h
  · exact fun n => .inl rfl
  · exact fun _ _ _ hy _ => hy
  · intro y i t s' t' hr hy hg ht hs
    refine hy.step hs (fun k => hr.current_lt_parked (List.mem_of_getElem? ht)) fun hsignals => ?_
    exact (hg.2 t ht hsignals).imp hr.parked_eq_current hr.current_eq_zero

/-- The signals owed to the current waiters have let one leave or left it a token. -/
structure Settled (s : Monitor) : Prop where
  owed : s.past.owed ≤ s.past.served + min s.cond.tokens s.past.current
  matched : s.past.matched ≤ s.past.owed

/-- A released waiter leaves on its generation, or nobody else is in the loop. -/
theorem Settled.step {s s' : Monitor} {t t' : Client} (h : Settled s) (hs : Client.Step s t s' t')
    (htally : Tally s) (hcur : s.past.current ≤ s.cond.parked)
    (hcurrent : ∀ k, t.ticket = some k → k.broadcasts = s.past.broadcasts →
      0 < s.past.current ∧ s.cond.generation = k.generation)
    (hreleased : ∀ k, t.ticket = some k → k.broadcasts ≠ s.past.broadcasts →
      s.past.current = 0 ∨ s.cond.tokens = 0) : Settled s' := by
  obtain ⟨howed, hmatched⟩ := h
  cases hs with
  | waitLeaves ht hp =>
      obtain ⟨_, _, htokens⟩ := Cond.poll_some hp
      simp only [Cond.register_tokens] at htokens
      refine ⟨?_, hmatched⟩
      simp only
      omega
  | waitBlocks ht =>
      refine ⟨?_, hmatched⟩
      simp only [Cond.register_tokens]
      omega
  | @leave b k c hp =>
      obtain ⟨_, _, htokens⟩ := Cond.poll_some hp
      simp only [Monitor.leave]
      split_ifs with hb
      · -- a current waiter leaves on a token
        obtain ⟨hpos, hgen⟩ := hcurrent k rfl hb
        refine ⟨?_, hmatched⟩
        simp only
        omega
      · have hfree := hreleased k rfl hb
        refine ⟨?_, hmatched⟩
        simp only
        omega
  | put | signal =>
      have hsignalled := htally.signalled
      have hserved := htally.served
      constructor
      · simp only [Monitor.signal]
        rcases s.cond.signal_tokens with ⟨hlt, htokens⟩ | ⟨hle, htokens⟩ <;> split <;> omega
      · simp only [Monitor.signal]
        split <;> split <;> omega
  | broadcast => exact ⟨Nat.zero_le _, le_rfl⟩
  | _ => exact ⟨howed, hmatched⟩

theorem Reached.settled {x : State} (h : Reached signalsApart x) : Settled x.shared := by
  refine Reached.invariant (J := fun x => Settled x.shared) ?_ ?_ ?_ h
  · exact fun n => ⟨le_rfl, le_rfl⟩
  · exact fun _ _ _ hy _ => hy
  · intro y i t s' t' hr hy _ ht hs
    have hmem := List.mem_of_getElem? ht
    refine hy.step hs hr.tally hr.current_le_parked
      (fun k hk hb => ⟨hr.current_pos hmem hk hb, hr.generation_of_current hmem hk hb⟩)
      fun k hk hb => ?_
    have hlt := hr.current_lt_parked hmem hk hb
    rcases hr.apart with h | h | h
    · exact .inl h
    · omega
    · exact .inr h

/-- Once no waiter can leave, no token is out and those left are current. -/
theorem Reached.stuck {G : State → Act → Prop} (hG : ∀ x m, G x m → unwrapped x m) {x : State}
    (h : Reached G x)
    (hnone : ∀ u ∈ x.threads, ∀ k, u.ticket = some k → x.shared.cond.poll k.generation = none) :
    x.shared.cond.tokens = 0 ∧ x.shared.cond.parked = x.shared.past.current := by
  constructor
  · by_contra htokens
    have hpos : 0 < x.shared.cond.parked := by
      have hle := h.tally.tokens_le
      omega
    obtain ⟨u, hu, k, hk⟩ := h.exists_parked hpos
    exact htokens (Cond.poll_none (hnone u hu k hk)).1
  · refine h.parked_eq_current fun u hu k hk => ?_
    exact (h.generation_iff hG hu hk).mp (Cond.poll_none (hnone u hu k hk)).2

/-- In every run in which no signal meets both kinds of waiters in the loop: the signals
owed to the current waiters have each let one leave or left one a token, unless a
broadcast came after; a signal that found fewer signals than registrations is owed; and
once no waiter can leave, all that the broadcast released have left and as many more as
were owed. -/
theorem signals_after_broadcast {x : State} (h : Reached signalsApart x) :
    x.shared.past.owed ≤ x.shared.past.served + min x.shared.cond.tokens x.shared.past.current ∧
      x.shared.past.matched ≤ x.shared.past.owed ∧
      ((∀ u ∈ x.threads, ∀ k, u.ticket = some k → x.shared.cond.poll k.generation = none) →
        x.shared.past.gone = x.shared.past.released ∧
          x.shared.past.owed ≤ x.shared.past.served) := by
  obtain ⟨howed, hmatched⟩ := h.settled
  refine ⟨howed, hmatched, fun hnone => ?_⟩
  obtain ⟨htokens, hparked⟩ := h.stuck (fun _ _ => unwrapped_of_signalsApart) hnone
  have hreleased := h.tally.released
  constructor <;> omega

/-- A waiter, a broadcast and a second waiter; the released waiter leaves, and a signal
lets the other one leave. -/
theorem signals_after_broadcast_small :
    ∃ x, Reached signalsApart x ∧ x.shared.past.released = 1 ∧ x.shared.past.matched = 1 ∧
      (∀ u ∈ x.threads, ∀ k, u.ticket = some k → x.shared.cond.poll k.generation = none) ∧
      x.shared.past.owed ≤ x.shared.past.served + min x.shared.cond.tokens x.shared.past.current ∧
      x.shared.past.matched ≤ x.shared.past.owed ∧
      x.shared.past.gone = x.shared.past.released ∧
      x.shared.past.owed ≤ x.shared.past.served := by
  obtain ⟨x, hx, hφ⟩ := Program.Reach.exists_of_run
    (P := clients) (I := Initial) (G := signalsApart) (x := noClients)
    (m := [.call .wait, .step 0 (), .step 0 (), .call .broadcast, .step 1 (), .call .wait,
      .step 2 (), .step 2 (), .step 0 (), .call .signal, .step 3 (), .step 2 ()])
    (φ := fun x => decide (x.shared.past.released = 1 ∧ x.shared.past.matched = 1 ∧
      ∀ u ∈ x.threads, u.ticket = none)) ⟨0, rfl⟩ (by decide)
  obtain ⟨hreleased, hmatched, htickets⟩ := of_decide_eq_true hφ
  have hnone : ∀ u ∈ x.threads, ∀ k, u.ticket = some k →
      x.shared.cond.poll k.generation = none := by
    intro u hu k hk
    rw [htickets u hu] at hk
    cases hk
  have hall := signals_after_broadcast hx
  exact ⟨x, hx, hreleased, hmatched, hnone, hall.1, hall.2.1, hall.2.2 hnone⟩

/-- The waiter that the broadcast released takes the token of the signal: nobody can
leave any more, and the waiter to whom the signal is owed is still in the loop. -/
theorem released_waiter_takes_token :
    ∃ x, Reached unwrapped x ∧
      (∀ u ∈ x.threads, ∀ k, u.ticket = some k → x.shared.cond.poll k.generation = none) ∧
      x.shared.past.served < x.shared.past.owed ∧
      x.shared.past.gone + x.shared.past.served <
        x.shared.past.released + x.shared.past.matched := by
  obtain ⟨x, hx, hφ⟩ := Program.Reach.exists_of_run
    (P := clients) (I := Initial) (G := unwrapped) (x := noClients)
    (m := [.call .wait, .step 0 (), .step 0 (), .call .broadcast, .step 1 (), .call .wait,
      .step 2 (), .step 2 (), .call .signal, .step 3 (), .step 0 ()])
    (φ := fun x => decide ((∀ u ∈ x.threads, ∀ k ∈ u.ticket,
        x.shared.cond.poll k.generation = none) ∧
      x.shared.past.served < x.shared.past.owed ∧ x.shared.past.gone + x.shared.past.served <
        x.shared.past.released + x.shared.past.matched)) ⟨0, rfl⟩ (by decide)
  exact ⟨x, hx, of_decide_eq_true hφ⟩

end AntsPool.CondClients
