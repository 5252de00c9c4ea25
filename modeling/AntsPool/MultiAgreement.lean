import AntsPool.Lifecycle
import AntsPool.MultiPoolSteps

/-!
# The state of a multi-pool and of its members

`release_context` and `reboot` exchange the state of the multi-pool first and then
call into every member. Each such call is a debt of the member: as long as every one
of them finds the member in the state it is to change, the multi-pool's state is the
member's with its debts paid, and a call that has returned has left none.
-/
namespace AntsPool
open Interleaving ListTotals

def PoolState.value : PoolState → ℤ
  | .opened => 1
  | .closed => 0

theorem PoolState.value_inj {s t : PoolState} (h : s.value = t.value) : s = t := by
  cases s <;> cases t <;> first | rfl | cases h

namespace Thread

/-- What a call that is still to exchange the state of its pool will add to it. -/
def due : Thread → ℤ
  | .release t =>
      match t.pc with
      | .entryClosed | .entryPurge | .entryTicktock | .copyPurgeCtx | .copyTicktockCtx
      | .exchange => -1
      | _ => 0
  | .reboot .checkState | .reboot .latchFetch | .reboot (.latchWait _) | .reboot .waitPurge
  | .reboot .waitTicktock | .reboot .exchange => 1
  | _ => 0

/-- The call finds the pool in the state it is to change, as far as its next step
looks. -/
def finds (o : Options) (s : PoolCore) : Thread → Bool
  | .release t =>
      match t.pc with
      | .entryClosed | .exchange => !s.isClosed
      | .entryPurge => o.disablePurge || s.stopPurge.isSome
      | .entryTicktock => s.stopTicktock.isSome
      | _ => true
  | .reboot .checkState | .reboot .exchange => s.isClosed
  | _ => true

end Thread

/-- No call on the pool returns without having exchanged its state. -/
def exchanges (o : Options) (x : Config) : Move → Prop
  | .call _ => True
  | .step i _ => ∀ t ∈ x.threads[i]?, t.finds o x.shared = true

instance (o : Options) (x : Config) : (m : Move) → Decidable (exchanges o x m)
  | .call _ => inferInstanceAs (Decidable True)
  | .step i _ => inferInstanceAs (Decidable (∀ t ∈ x.threads[i]?, t.finds o x.shared = true))

theorem Thread.Step.due {o : Options} {i : ℕ} {s s' : PoolCore} {t t' : Thread} {new : List Thread}
    (h : Thread.Step o i s t s' t' new) (hf : t.finds o s = true) :
    s'.state.value + t'.due = s.state.value + t.due := by
  cases h with
  | release h =>
      cases h with
      | entryRefused hc | exchangeFails hc => simp [finds, PoolCore.isClosed, hc] at hf
      | entryNoPurge hd hn => simp [finds, hd, hn] at hf
      | entryNoTicktock hn => simp [finds, hn] at hf
      | exchange ho => simp [Thread.due, ho, PoolState.value]
      | reset => rw [Release.reset_state]; rfl
      | busy _ ha | latchClose ha => cases ha <;> rfl
      | _ => rfl
  | reboot h =>
      cases h with
      | opened ho | exchangeFails ho => simp [finds, PoolCore.isClosed, ho] at hf
      | exchange hc => simp [Thread.due, hc, PoolState.value]
      | _ => rfl
  | submit h => cases h <;> rfl
  | work h => cases h <;> rfl
  | purge h => cases h <;> rfl
  | ticktock h => cases h <;> rfl
  | tune h => cases h <;> rfl
  | clock => rfl

theorem Thread.newborn.due {t : Thread} (h : t.newborn) : t.due = 0 := by
  rcases h with (rfl | rfl | rfl) | ⟨w, rfl⟩ <;> rfl

/-- A debt is paid and not made again. -/
theorem Thread.Step.due_of_due {o : Options} {i : ℕ} {s s' : PoolCore} {t t' : Thread}
    {new : List Thread} (h : Thread.Step o i s t s' t' new) (ht : t'.due ≠ 0) : t.due ≠ 0 := by
  cases h with
  | release h =>
      cases h with
      | exchangeFails _ ha | busy _ ha | latchClose ha => cases ha <;> exact (ht rfl).elim
      | _ => first | exact ht | exact (ht rfl).elim
  | reboot h =>
      cases h with
      | _ => first | exact ht | exact (ht rfl).elim
  | _ => exact (ht rfl).elim

/-- The state of a pool with its debts paid. -/
def stateLedger : Ledger PoolCore Thread := ⟨fun s => s.state.value, Thread.due⟩

theorem balance_step {o : Options} {c c' : Config} {i : ℕ} {a : Env}
    (hc : (program o).fire c (.step i a) = some c') (hg : exchanges o c (.step i a)) :
    stateLedger.balance c' = stateLedger.balance c := by
  obtain ⟨t, ⟨s', t', new⟩, ht, hn, rfl⟩ := Program.fire_step _ hc
  have hs := program_step hn
  have hstep : s'.state.value + t'.due = c.shared.state.value + t.due := hs.due (hg t ht)
  have hnew : total Thread.due new = 0 := total_eq_zero fun u hu => (hs.newborn hu).due
  have hafter := stateLedger.balance_after ht (s', t', new)
  simp only [stateLedger, hnew] at hafter ⊢
  omega

theorem Starts.balance {o : Options} {c : Config} (h : Starts o c) :
    stateLedger.balance c = 1 := by
  have hf := h.fresh
  have hthreads : total Thread.due c.threads = 0 :=
    total_eq_zero fun t ht => Thread.newborn.due (.inl (hf.threads t ht))
  rw [Ledger.balance]
  simp only [stateLedger, hf.state, hthreads, PoolState.value, add_zero]

namespace MultiPool

/-- What a client has still to hand over to member `k`. -/
def Client.due (k : ℕ) : Client → ℤ
  | .releaseContext _ (.spawn handles) => if handles.length ≤ k then -1 else 0
  | .reboot .storeIndex => 1
  | .reboot (.call l) => if l ≤ k then 1 else 0
  | .reboot (.await l _) => if l < k then 1 else 0
  | _ => 0

/-- What a call hands over to member `k`. -/
def handedOver (k : ℕ) : Option (ℕ × Call) → ℤ
  | some (l, c) => if l = k then (c.start 0).due else 0
  | none => 0

theorem handedOver_of_ne {k : ℕ} {call : Option (ℕ × Call)} (h : ∀ d, call ≠ some (k, d)) :
    handedOver k call = 0 := by
  cases call with
  | none => rfl
  | some ld =>
      obtain ⟨l, d⟩ := ld
      refine if_neg fun hlk => ?_
      subst hlk
      exact h d rfl

/-- What a client adds to the state of the multi-pool, it owes every member until it
hands it over. -/
theorem Client.Step.due {s s' : MultiPoolCore} {pools : List Config} {t t' : Client}
    {call : Option (ℕ × Call)} (h : Client.Step s pools t s' t' call) {k : ℕ}
    (hk : k < pools.length) :
    s'.state.value + t.due k = s.state.value + t'.due k + handedOver k call := by
  cases h with
  | dispatch h =>
      cases h with
      | deliver => simp [Client.due, handedOver, Call.start, Thread.due]
      | _ => simp only [Client.due, handedOver, add_zero]
  | releaseContext h =>
      cases h with
      | exchange ho => simp [Client.due, handedOver, ho, PoolState.value]
      | spawn hlt =>
          simp only [Client.due, handedOver, Call.start, Thread.due, List.length_append,
            List.length_singleton]
          split_ifs <;> omega
      | spawned hle =>
          simp only [Client.due, handedOver]
          split_ifs <;> omega
      | _ => simp only [Client.due, handedOver, add_zero]
  | reboot h =>
      cases h with
      | exchange hc => simp [Client.due, handedOver, hc, PoolState.value]
      | call hlt =>
          simp only [Client.due, handedOver, Call.start, Thread.due]
          split_ifs <;> omega
      | finished hle =>
          simp only [Client.due, handedOver]
          split_ifs <;> omega
      | await => simp only [Client.due, handedOver, Nat.succ_le_iff, add_zero]
      | _ => simp [Client.due, handedOver]
  | tune h =>
      cases h with
      | call => simp [Client.due, handedOver, Call.start, Thread.due]
      | _ => simp only [Client.due, handedOver, add_zero]

/-- The call of a client that a debt of member `k` waits for. -/
def Client.awaits (k i : ℕ) : Client → Prop
  | .releaseContext _ (.spawn handles) => handles[k]? = some i
  | .releaseContext _ (.join handles outcomes) => outcomes.length ≤ k ∧ handles[k]? = some i
  | .reboot (.await l j) => l = k ∧ j = i
  | _ => False

/-- A call of `release_context` or `reboot` that has not returned. -/
def Client.lifecycle : Client → Bool
  | .releaseContext _ (.returned _) | .reboot .returned => false
  | .releaseContext _ _ | .reboot _ => true
  | _ => false

def inProgress : Role Client → Bool
  | .members => false
  | .client t => t.lifecycle

theorem due_of_result {c : Config} {i : ℕ} {r : Option Error} (h : result c i = some r) {t : Thread}
    (ht : c.threads[i]? = some t) : t.due = 0 := by
  simp only [result, ht] at h
  cases t with
  | release t =>
      obtain ⟨m, p, k, pc⟩ := t
      cases pc <;> first | rfl | cases h
  | reboot t => cases t <;> first | rfl | cases h
  | _ => rfl

theorem Client.Step.awaits {s s' : MultiPoolCore} {pools : List Config} {t t' : Client}
    {call : Option (ℕ × Call)} (h : Client.Step s pools t s' t' call) {k i : ℕ}
    (ht : t.awaits k i) : t'.awaits k i ∨ ∃ r, resultAt pools k i = some r := by
  cases h with
  | dispatch | tune => exact ht.elim
  | releaseContext h =>
      cases h with
      | spawn hlt =>
          have hk := (List.getElem?_eq_some_iff.mp ht).1
          exact .inl ((List.getElem?_append_left hk).trans ht)
      | spawned hle => exact .inl ⟨Nat.zero_le k, ht⟩
      | joined hle =>
          have hk := (List.getElem?_eq_some_iff.mp ht.2).1
          have hle' := ht.1
          omega
      | @join handles outcomes j r hi hr =>
          obtain ⟨hle, hk⟩ := ht
          rcases hle.eq_or_lt with rfl | hlt
          · cases hi.symm.trans hk
            exact .inr ⟨r, hr⟩
          · refine .inl ⟨?_, hk⟩
            rw [List.length_append]
            exact hlt
      | _ => exact ht.elim
  | reboot h =>
      cases h with
      | await hr =>
          obtain ⟨rfl, rfl⟩ := ht
          exact .inr ⟨_, hr⟩
      | _ => exact ht.elim

theorem Client.Step.awaits_call {s s' : MultiPoolCore} {pools : List Config} {t t' : Client}
    {k : ℕ} {c : Call} (h : Client.Step s pools t s' t' (some (k, c)))
    (hc : (c.start 0).due ≠ 0) : t'.awaits k (nextCall pools k) := by
  cases h with
  | dispatch h =>
      cases h
      exact (hc rfl).elim
  | releaseContext h =>
      cases h
      exact List.getElem?_concat_length
  | reboot h =>
      cases h
      exact ⟨rfl, rfl⟩
  | tune h =>
      cases h
      exact (hc rfl).elim

theorem start_due (c : Call) (i : ℕ) : (c.start i).due = (c.start 0).due := by
  cases c <;> rfl

theorem Client.idle {t : Client} (h : t.lifecycle = false) (k i : ℕ) :
    t.due k = 0 ∧ ¬ t.awaits k i := by
  cases t with
  | releaseContext b pc =>
      cases pc with
      | returned r => exact ⟨rfl, id⟩
      | _ => cases h
  | reboot pc =>
      cases pc with
      | returned => exact ⟨rfl, id⟩
      | _ => cases h
  | _ => exact ⟨rfl, id⟩

theorem balance_enter {o : Options} {pools : List Config} {call : Option (ℕ × Call)} {k : ℕ}
    {c' : Config} (h : ((AntsPool.program o).enter pools call)[k]? = some c') :
    ∃ c, pools[k]? = some c ∧
      stateLedger.balance c' = stateLedger.balance c + handedOver k call := by
  rcases Facade.enter_cases h with ⟨hk, hother⟩ | ⟨c, d, hc, rfl, rfl⟩
  · exact ⟨c', hk, by rw [handedOver_of_ne hother, add_zero]⟩
  · refine ⟨c, hc, ?_⟩
    rw [Ledger.balance_entered, handedOver, if_pos rfl, ← start_due d c.threads.length]
    rfl

def roleDue (k : ℕ) : Role Client → ℤ
  | .members => 0
  | .client t => t.due k

theorem Request.start_due (d : Request) (k : ℕ) : d.start.due k = 0 := by
  cases d <;> rfl

namespace Run
variable {o : Options} {G : Guard} {x : State}

/-- The state of the multi-pool is that of each member with all debts paid, the ones
of its calls and the ones that clients are still to hand over. -/
theorem state_eq (hG : ∀ x m, G x m → Facade.lift (exchanges o) x m) (h : Run o G x) {k : ℕ}
    {c : Config} (hk : x.shared.members[k]? = some c) :
    x.shared.head.state.value = stateLedger.balance c + total (roleDue k) x.threads := by
  refine Run.invariant (J := fun x => ∀ k c, x.shared.members[k]? = some c →
    x.shared.head.state.value = stateLedger.balance c + total (roleDue k) x.threads)
    ?_ ?_ ?_ ?_ h k c hk
  · intro y hy k c hk
    rw [(hy.members c (List.mem_of_getElem? hk)).balance, hy.state, hy.threads]
    rfl
  · intro y d _ hy _ k c hk
    rw [total_append, hy k c hk, total_cons, total_nil, roleDue, d.start_due]
    omega
  · intro y j l i a c c' _ hy hg hl hc k d hk
    rcases eq_or_ne l k with rfl | hne
    · have hlt := (List.getElem?_eq_some_iff.mp hl).1
      rw [List.getElem?_set_self hlt] at hk
      cases hk
      rw [balance_step hc (hG y _ hg c hl)]
      exact hy l c hl
    · rw [List.getElem?_set_ne hne] at hk
      exact hy k d hk
  · intro y j t s' t' call _ hy _ ht hs k c' hk
    obtain ⟨c, hc, hbalance⟩ := balance_enter hk
    have hvalue := hy k c hc
    have hdue := hs.due (List.getElem?_eq_some_iff.mp hc).1
    have htot := Config.total_after (roleDue k) ht
      (⟨s', (AntsPool.program o).enter y.shared.members call⟩, .client t', [])
    simp only [roleDue, total_nil] at htot
    change s'.state.value = _
    omega

/-- A call on a member that has a debt belongs to a client that waits for it. -/
theorem awaited (h : Run o G x) {k i : ℕ} {c : Config} {t : Thread}
    (hk : x.shared.members[k]? = some c) (hi : c.threads[i]? = some t) (ht : t.due ≠ 0) :
    ∃ u, .client u ∈ x.threads ∧ u.awaits k i := by
  refine Run.invariant (J := fun x => ∀ k i c t, x.shared.members[k]? = some c →
    c.threads[i]? = some t → t.due ≠ 0 → ∃ u, .client u ∈ x.threads ∧ u.awaits k i)
    ?_ ?_ ?_ ?_ h k i c t hk hi ht
  · intro y hy k i c t hk hi ht
    have hf := (hy.members c (List.mem_of_getElem? hk)).fresh
    exact (ht (Thread.newborn.due (.inl (hf.threads t (List.mem_of_getElem? hi))))).elim
  · intro y d _ hy _ k i c t hk hi ht
    obtain ⟨u, hu, hawaits⟩ := hy k i c t hk hi ht
    exact ⟨u, List.mem_append_left _ hu, hawaits⟩
  · intro y j l m a c c' _ hy _ hl hc k i d t hk hi ht
    rcases eq_or_ne l k with rfl | hne
    · obtain ⟨u, ⟨s', u', new⟩, hu, hn, rfl⟩ := Program.fire_step _ hc
      have hs := AntsPool.program_step hn
      rw [List.getElem?_set_self (List.getElem?_eq_some_iff.mp hl).1] at hk
      cases hk
      rcases Config.getElem?_after hu hi with ⟨rfl, rfl⟩ | ⟨_, hi⟩ | ⟨_, hnew⟩
      · exact hy l i c u hl hu (hs.due_of_due ht)
      · exact hy l i c t hl hi ht
      · exact (ht (hs.newborn hnew).due).elim
    · rw [List.getElem?_set_ne hne] at hk
      exact hy k i d t hk hi ht
  · intro y j u s' u' call _ hy _ hj hs k i c' t hk hi ht
    have hself : .client u' ∈ (y.after j
        (⟨s', (AntsPool.program o).enter y.shared.members call⟩, .client u', [])).threads :=
      List.mem_of_getElem? (Config.getElem?_after_self hj)
    -- a call made before this step
    have hold : ∀ c, y.shared.members[k]? = some c → c.threads[i]? = some t →
        ∃ v, .client v ∈ (y.after j
          (⟨s', (AntsPool.program o).enter y.shared.members call⟩, .client u', [])).threads ∧
          v.awaits k i := by
      intro c hc hi
      obtain ⟨v, hv, hawaits⟩ := hy k i c t hc hi ht
      by_cases huv : v = u
      · subst huv
        rcases hs.awaits hawaits with hawaits | ⟨r, hr⟩
        · exact ⟨u', hself, hawaits⟩
        · rw [resultAt, hc] at hr
          exact (ht (due_of_result hr hi)).elim
      · exact ⟨v, Config.mem_after_of_ne hj hv (fun h => huv (Role.client.inj h).symm) _, hawaits⟩
    rcases Facade.enter_cases hk with ⟨hk, _⟩ | ⟨c, d, hc, rfl, rfl⟩
    · exact hold c' hk hi
    · rcases getElem?_concat_cases hi with hi | ⟨rfl, rfl⟩
      · exact hold c hc hi
      · have hcall := hs.awaits_call (start_due d c.threads.length ▸ ht)
        simp only [nextCall, hc] at hcall
        exact ⟨u', hself, hcall⟩

end Run

/-- In every run in which no call that the multi-pool makes on a member returns without
having exchanged its state: when no `release_context` and no `reboot` of the multi-pool
is in progress, it and all its members are opened or all of them are closed. -/
theorem members_agree {o : Options} {x : State} (h : Run o (Facade.lift (exchanges o)) x)
    (hq : ∀ r ∈ x.threads, inProgress r = false) :
    (x.shared.head.state = .opened ∧ ∀ c ∈ x.shared.members, c.shared.state = .opened) ∨
      (x.shared.head.state = .closed ∧ ∀ c ∈ x.shared.members, c.shared.state = .closed) := by
  have hagree : ∀ c ∈ x.shared.members, c.shared.state = x.shared.head.state := by
    intro c hc
    obtain ⟨k, hk⟩ := List.mem_iff_getElem?.mp hc
    have hclients : total (roleDue k) x.threads = 0 := by
      refine total_eq_zero fun r hr => ?_
      cases r with
      | members => rfl
      | client t => exact (Client.idle (hq (.client t) hr) k 0).1
    have hcalls : total Thread.due c.threads = 0 := by
      refine total_eq_zero fun t ht => ?_
      obtain ⟨i, hi⟩ := List.mem_iff_getElem?.mp ht
      by_contra hdue
      obtain ⟨u, hu, hawaits⟩ := h.awaited hk hi hdue
      exact (Client.idle (hq (.client u) hu) k i).2 hawaits
    have hvalue := h.state_eq (fun _ _ => id) hk
    rw [hclients, add_zero, Ledger.balance] at hvalue
    simp only [stateLedger, hcalls, add_zero] at hvalue
    exact (PoolState.value_inj hvalue).symm
  cases hs : x.shared.head.state with
  | opened => exact .inl ⟨rfl, fun c hc => (hagree c hc).trans hs⟩
  | closed => exact .inr ⟨rfl, fun c hc => (hagree c hc).trans hs⟩

/-- One `release_context` of two pools. -/
theorem members_agree_released :
    ∃ x, Run smallOptions (Facade.lift (exchanges smallOptions)) x ∧
      (∀ r ∈ x.threads, inProgress r = false) ∧ x.shared.head.state = .closed ∧
      ((x.shared.head.state = .opened ∧ ∀ c ∈ x.shared.members, c.shared.state = .opened) ∨
        (x.shared.head.state = .closed ∧ ∀ c ∈ x.shared.members, c.shared.state = .closed)) := by
  obtain ⟨x, hx, hφ⟩ := Program.Reach.exists_of_run
    (P := program smallOptions) (I := Starts smallOptions)
    (G := Facade.lift (exchanges smallOptions)) (x := smallPools)
    (m := .call (.releaseContext false) :: own 1 4 ++ inside 0 2 14 ++ inside 1 2 14 ++ own 1 3)
    (φ := fun x => decide ((∀ r ∈ x.threads, inProgress r = false) ∧
      x.shared.head.state = .closed)) smallPools_starts (by decide)
  obtain ⟨hq, hclosed⟩ := of_decide_eq_true hφ
  exact ⟨x, hx, hq, hclosed, members_agree hx hq⟩

/-- A `reboot` of the multi-pool overtakes a `release_context` that has exchanged the
state and not called into the members yet: it finds them opened and leaves them, and
then they are released. -/
theorem members_closed_under_opened :
    ∃ x, Run smallOptions (fun _ _ => True) x ∧ (∀ r ∈ x.threads, inProgress r = false) ∧
      x.shared.head.state = .opened ∧ x.shared.members.length = 2 ∧
      ∀ c ∈ x.shared.members, c.shared.state = .closed := by
  obtain ⟨x, hx, hφ⟩ := Program.Reach.exists_of_run
    (P := program smallOptions) (I := Starts smallOptions) (G := fun _ _ => True) (x := smallPools)
    (m := .call (.releaseContext false) :: own 1 1 ++ .call .reboot :: own 2 3 ++ inside 0 2 1 ++
      own 2 2 ++ inside 1 2 1 ++ own 2 2 ++ own 1 3 ++ inside 0 3 14 ++ inside 1 3 14 ++ own 1 3)
    (φ := fun x => decide ((∀ r ∈ x.threads, inProgress r = false) ∧
      x.shared.head.state = .opened ∧ x.shared.members.length = 2 ∧
      ∀ c ∈ x.shared.members, c.shared.state = .closed)) smallPools_starts (by decide)
  exact ⟨x, hx, of_decide_eq_true hφ⟩

end MultiPool

end AntsPool
