import AntsPool.CondClients

/-!
# Consumers and producers

Consumers take units under the lock and wait while there are none, producers add
units under the lock and signal, and anyone broadcasts. A unit and a waiter are never
left side by side with nobody on the way to them.
-/
namespace AntsPool.CondClients
open Interleaving

/-- Only consumers, producers and broadcasts, and fewer than `2 ^ 64` broadcasts
during a wait. -/
def consumersOnly (x : State) : Act → Prop
  | .call r => r = .consume ∨ r = .produce ∨ r = .broadcast
  | m => unwrapped x m

instance (x : State) : (m : Act) → Decidable (consumersOnly x m)
  | .call r => inferInstanceAs (Decidable (r = .consume ∨ r = .produce ∨ r = .broadcast))
  | .step i () => inferInstanceAs (Decidable (unwrapped x (.step i ())))

theorem unwrapped_of_consumersOnly {x : State} {m : Act} (h : consumersOnly x m) :
    unwrapped x m := by
  cases m with
  | call r => trivial
  | step i a => exact h

namespace Client

/-- A consumer that has left the wait and not tested the count since. -/
def retests : Client → Bool
  | .waiter true (.woken _ _) | .waiter true (.test true) => true
  | _ => false

def consumes : Client → Prop
  | .waiter b _ => b = true
  | _ => True

theorem Step.consumes {s s' : Monitor} {t t' : Client} (h : Client.Step s t s' t')
    (ht : t.consumes) : t'.consumes := by
  cases h <;> exact ht

/-- The count changes in a critical section only. -/
theorem Step.units {s s' : Monitor} {t t' : Client} (h : Client.Step s t s' t') :
    s'.units = s.units ∨ t.holdsLock = true := by
  cases h with
  | take | put => exact .inr rfl
  | leave =>
      refine .inl ?_
      simp only [Monitor.leave]
  | _ => exact .inl rfl

/-- A consumer on its way to `wait` found the count empty. -/
theorem Step.units_of_wait {s s' : Monitor} {t t' : Client} (h : Client.Step s t s' t')
    (ht : t.consumes) (hw : t' = .waiter true .wait) : s'.units = 0 := by
  cases h with
  | empty hu => exact hu
  | lockWait => exact (Bool.false_ne_true ht).elim
  | _ => cases hw

end Client

/-- With `w` consumers about to test again: the units are covered by them and by the
tokens, or every waiter has its token, or the waiters are all released. -/
def Monitor.Covered (s : Monitor) (w : ℕ) : Prop :=
  s.units ≤ s.cond.tokens + w ∨ s.cond.parked ≤ s.cond.tokens ∨ s.past.current = 0

theorem Client.Step.covered {s s' : Monitor} {t t' : Client} (hs : Client.Step s t s' t')
    {w w' : ℕ} (hw : (w' : ℤ) + (if t.retests then 1 else 0) = w + (if t'.retests then 1 else 0))
    (hcons : t.consumes) (hempty : t = .waiter true .wait → s.units = 0) (h : s.Covered w) :
    s'.Covered w' := by
  unfold Monitor.Covered at *
  cases hs with
  | lockTest | lockPut | unlock | unhold | wokenTest =>
      have heq : w' = w := by simpa [retests] using hw
      rwa [heq]
  | lockWait | wokenHeld => exact (Bool.false_ne_true hcons).elim
  | @take b again hu =>
      cases hcons
      refine h.imp_left fun h => ?_
      cases again <;> simp only [retests, if_true, Bool.false_eq_true, if_false] at hw ⊢ <;> omega
  | empty hu => exact .inl (hu ▸ Nat.zero_le _)
  | @waitLeaves b | @waitBlocks b =>
      cases hcons
      exact .inl ((hempty rfl) ▸ Nat.zero_le _)
  | @leave b k c hp =>
      cases hcons
      obtain ⟨_, hparked, htokens⟩ := Cond.poll_some hp
      simp only [retests, if_true, Bool.false_eq_true, if_false] at hw
      have hcurrent : (s.leave k c).past.current ≤ s.past.current := by
        simp only [Monitor.leave]
        split
        · exact Nat.sub_le _ _
        · exact le_rfl
      simp only [Monitor.leave]
      rcases h with h | h | h
      · left
        omega
      · right; left
        omega
      · right; right
        exact Nat.le_zero.mp (h ▸ hcurrent)
  | put | signal =>
      have heq : w' = w := by simpa [retests] using hw
      simp only [heq, Monitor.signal, Cond.signal_parked]
      rcases s.cond.signal_tokens with ⟨hlt, htokens⟩ | ⟨hle, htokens⟩ <;> omega
  | broadcast => exact .inr (.inr rfl)

namespace Reached
variable {x : State}

theorem consumers (h : Reached consumersOnly x) {u : Client} (hu : u ∈ x.threads) :
    u.consumes ∧ (u = .waiter true .wait → x.shared.units = 0) := by
  refine (invariant_clients (J := fun _ => True)
    (φ := fun s u => u.consumes ∧ (u = .waiter true .wait → s.units = 0))
    (fun _ => trivial) ?_ ?_ h).2 u hu
  · intro y r _ _ hg
    rcases hg with rfl | rfl | rfl <;> exact ⟨by trivial, nofun⟩
  · intro y i t s' t' hr _ hall _ ht hs
    have htc := (hall t (List.mem_of_getElem? ht)).1
    refine ⟨trivial, ⟨hs.consumes htc, hs.units_of_wait htc⟩, fun j u hj hu => ?_⟩
    obtain ⟨huc, hwait⟩ := hall u (List.mem_of_getElem? hu)
    refine ⟨huc, fun hw => ?_⟩
    rcases hs.units with hunits | hholds
    · rw [hunits]
      exact hwait hw
    · -- two clients would be inside a critical section
      subst hw
      exact (hj (hr.holder_unique hu ht rfl hholds)).elim

theorem covered (h : Reached consumersOnly x) :
    x.shared.Covered (x.threads.countP Client.retests) := by
  refine invariant (J := fun x => x.shared.Covered (x.threads.countP Client.retests)) ?_ ?_ ?_ h
  · exact fun _ => .inr (.inl le_rfl)
  · intro y r _ hy hg
    rw [List.countP_append]
    rcases hg with rfl | rfl | rfl <;> exact hy
  · intro y i t s' t' hr hy _ ht hs
    obtain ⟨hcons, hempty⟩ := hr.consumers (List.mem_of_getElem? ht)
    exact hs.covered (Config.countP_after Client.retests ht nofun) hcons hempty hy

end Reached

/-- Whenever a unit is there and a consumer is registered, one that is registered can
leave the wait or one that has left it is still to test again. -/
theorem no_stranded_consumer {x : State} (h : Reached consumersOnly x) :
    x.shared.cond.tokens ≤ x.shared.cond.parked ∧
      x.shared.cond.parked = x.threads.countP Client.blocked ∧
      (0 < x.shared.units → 0 < x.shared.cond.parked →
        (∃ u ∈ x.threads, ∃ k, u.ticket = some k ∧
          (0 < x.shared.cond.tokens ∨ x.shared.cond.generation ≠ k.generation)) ∨
        ∃ u ∈ x.threads, u.retests = true) := by
  refine ⟨h.tally.tokens_le, h.parked_eq, fun hunits hparked => ?_⟩
  obtain ⟨u, hu, k, hk⟩ := h.exists_parked hparked
  by_cases htokens : 0 < x.shared.cond.tokens
  · exact .inl ⟨u, hu, k, hk, .inl htokens⟩
  rcases h.covered with hcov | hcov | hcov
  · have hpos : 0 < x.threads.countP Client.retests := by omega
    exact .inr (List.countP_pos_iff.mp hpos)
  · omega
  · -- no waiter is current, so this one has seen a broadcast
    refine .inl ⟨u, hu, k, hk, .inr fun hgen => ?_⟩
    have hb := (h.generation_iff (fun _ _ => unwrapped_of_consumersOnly) hu hk).mp hgen
    have hzero := List.countP_eq_zero.mp (h.current_eq.symm.trans hcov) u hu
    exact hzero (Client.isCurrent_iff.mpr ⟨k, hk, hb⟩)

/-- Two consumers wait and a producer puts a unit and signals. -/
theorem no_stranded_consumer_small :
    ∃ x, Reached consumersOnly x ∧ 0 < x.shared.units ∧ 0 < x.shared.cond.parked ∧
      ((∃ u ∈ x.threads, ∃ k, u.ticket = some k ∧
          (0 < x.shared.cond.tokens ∨ x.shared.cond.generation ≠ k.generation)) ∨
        ∃ u ∈ x.threads, u.retests = true) := by
  obtain ⟨x, hx, hφ⟩ := Program.Reach.exists_of_run
    (P := clients) (I := Initial) (G := consumersOnly) (x := noClients)
    (m := [.call .consume, .call .consume, .call .produce, .step 0 (), .step 0 (), .step 0 (),
      .step 1 (), .step 1 (), .step 1 (), .step 2 (), .step 2 ()])
    (φ := fun x => decide (0 < x.shared.units ∧ 0 < x.shared.cond.parked)) ⟨0, rfl⟩ (by decide)
  obtain ⟨hunits, hparked⟩ := of_decide_eq_true hφ
  exact ⟨x, hx, hunits, hparked, (no_stranded_consumer hx).2.2 hunits hparked⟩

end AntsPool.CondClients
