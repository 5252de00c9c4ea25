import AntsPool.LeastScan
import AntsPool.MultiPoolSteps

/-!
# A dispatch that runs alone

A dispatch of a multi-pool over nonblocking pools, followed from its call while only
it and the call it waits for take steps. Up to the point where a member has a worker
for the payload it changes nothing that the choice of a member depends on.
-/
namespace AntsPool
open Interleaving LeastScan

/-- What the choice of a member and its answer depend on. -/
structure View where
  items : List ℕ
  capacity : ℤ
  running : ℤ

def PoolCore.view (s : PoolCore) : View := ⟨s.workers.items, s.capacity, s.running⟩

/-- No parked worker and no room for a new one. -/
def View.Refuses (v : View) : Prop := v.items = [] ∧ v.capacity ≠ -1 ∧ v.capacity ≤ v.running

/-- Where a call of a nonblocking pool can be as long as it has found no worker. -/
inductive Searching (v : View) : SubmitPc → Prop
  | checkClosed : Searching v .checkClosed
  | lock : Searching v .lock
  | readCap (hi : v.items = []) : Searching v .readCap
  | readRunning (hi : v.items = []) (hc : v.capacity ≠ -1) : Searching v (.readRunning v.capacity)
  | poolOverload (hr : v.Refuses) : Searching v (.err .poolOverload)
  | poolClosed : Searching v (.err .poolClosed)

/-- The call has a worker or is about to start one. -/
def SubmitPc.served : SubmitPc → Bool
  | .spawn | .run _ | .input _ | .ok _ => true
  | _ => false

theorem Submit.Step.searching {o : Options} {s s' : PoolCore} {t t' : Submit} {new : List Thread}
    (h : Submit.Step o s t s' t' new) (ht : Searching s.view t.pc) :
    t'.pc.served = true ∨ (s'.view = s.view ∧ Searching s.view t'.pc) ∨ o.nonblocking = false := by
  cases h with
  | closed => exact .inr (.inl ⟨rfl, .poolClosed⟩)
  | opened => exact .inr (.inl ⟨rfl, .lock⟩)
  | detachNone hl hd =>
      obtain ⟨hi, hi'⟩ := WorkerQueue.detach_none hd
      refine .inr (.inl ⟨?_, .readCap hi⟩)
      simp only [PoolCore.view, hi, hi']
  | bounded hc =>
      cases ht with
      | readCap hi => exact .inr (.inl ⟨rfl, .readRunning hi hc⟩)
  | overload hr =>
      cases ht with
      | readRunning hi hc => exact .inr (.inl ⟨rfl, .poolOverload ⟨hi, hc, hr⟩⟩)
  | enlist _ hn => exact .inr (.inr (Bool.or_eq_false_iff.mp hn).1)
  | detachSome | unlimited | room => exact .inl rfl
  | _ => cases ht

theorem Submit.Step.served {o : Options} {s s' : PoolCore} {t t' : Submit} {new : List Thread}
    (h : Submit.Step o s t s' t' new) (ht : t.pc.served = true) : t'.pc.served = true := by
  cases h <;> first | rfl | cases ht

namespace MultiPool

/-- What a dispatch sees of the members. -/
def views (pools : List Config) : List View := pools.map fun c => c.shared.view

/-- The first member with the fewest running workers. -/
def leastRunning (pools : List Config) : Option ℕ := (views pools).minIdxOn? View.running

/-- Why a dispatch that started in `x` scans the counters, and whether it is for the
second attempt. -/
inductive Scans (x : Group MultiPoolCore PoolCore Thread) : Bool → Prop
  | leastTasks (h : x.head.lbs = leastTasks) : Scans x false
  | fallback {v} (h : x.head.lbs = roundRobin)
      (hv : (views x.members)[ticket x.head % x.members.length]? = some v) (hr : v.Refuses) :
      Scans x true

/-- Why it turns to member `k`. -/
inductive Chosen (x : Group MultiPoolCore PoolCore Thread) : Bool → ℕ → Prop
  | rotation (h : x.head.lbs = roundRobin) : Chosen x false (ticket x.head % x.members.length)
  | scanned {f k} (hs : Scans x f) (hk : leastRunning x.members = some k) : Chosen x f k

theorem length_views (pools : List Config) : (views pools).length = pools.length :=
  List.length_map _

/-- Members that look the same are equally many. -/
theorem length_eq_of_views {pools pools' : List Config} (h : views pools = views pools') :
    pools.length = pools'.length := by
  rw [← length_views, h, length_views]

theorem views_of_getElem? {pools : List Config} {k : ℕ} {c : Config} (h : pools[k]? = some c) :
    (views pools)[k]? = some c.shared.view := by
  rw [views, List.getElem?_map, h]
  rfl

theorem views_set {pools : List Config} {k : ℕ} {c c' : Config} (h : pools[k]? = some c)
    (hc : c'.shared.view = c.shared.view) : views (pools.set k c') = views pools := by
  refine List.ext_getElem? fun j => ?_
  rw [views, views, List.getElem?_map, List.getElem?_map]
  rcases eq_or_ne k j with rfl | hne
  · rw [List.getElem?_set_self (List.getElem?_eq_some_iff.mp h).1, h]
    exact congrArg some hc
  · rw [List.getElem?_set_ne hne]

theorem views_enter (o : Options) (pools : List Config) (call : Option (ℕ × Call)) :
    views ((AntsPool.program o).enter pools call) = views pools := by
  refine List.ext_getElem? fun k => ?_
  rw [views, views, List.getElem?_map, List.getElem?_map]
  by_cases hcall : ∃ d, call = some (k, d)
  · obtain ⟨d, rfl⟩ := hcall
    rw [Facade.getElem?_enter_self, Option.map_map]
    rfl
  · rw [Facade.getElem?_enter_other fun d hd => hcall ⟨d, hd⟩]

/-- The call on the first member is made. -/
inductive Offered (s : MultiPoolCore) : Dispatch → Prop
  | fallback {n l pc} (h : s.lbs = roundRobin) : Offered s ⟨n, true, l, pc⟩
  | await {n f l k i} : Offered s ⟨n, f, l, .await k i⟩
  | returned {n f l r} : Offered s ⟨n, f, l, .returned r⟩

theorem Dispatch.Step.offered {s s' r : MultiPoolCore} {pools : List Config} {t t' : Dispatch}
    {call : Option (ℕ × Call)} (h : Dispatch.Step s pools t s' t' call) (hr : s.lbs = r.lbs)
    (ht : Offered r t) : Offered r t' := by
  cases h with
  | fallback _ hl => exact .fallback (hr.symm.trans hl)
  | deliver => exact .await
  | closed | returned => exact .returned
  | _ =>
      cases ht with
      | fallback hl => exact .fallback hl

/-- How far a dispatch is that started in `x` and has run alone since. A pool that is not
nonblocking may have kept its caller waiting. -/
inductive Alone (o : Options) (x y : Group MultiPoolCore PoolCore Thread) : Dispatch → Prop
  | checkClosed {n l} (hv : views y.members = views x.members) (hi : y.head.index = x.head.index) :
      Alone o x y ⟨n, false, l, .checkClosed⟩
  | ticket {n l} (hv : views y.members = views x.members) (hi : y.head.index = x.head.index)
      (h : x.head.lbs = roundRobin) : Alone o x y ⟨n, false, l, .ticket⟩
  | scan {n f l k least index} (hv : views y.members = views x.members) (hs : Scans x f)
      (hk : Scanned View.running (views x.members) k least index) :
      Alone o x y ⟨n, f, l, .scan k least index⟩
  | deliver {n f l k} (hv : views y.members = views x.members) (hc : Chosen x f k) :
      Alone o x y ⟨n, f, l, .deliver k⟩
  | searching {n f l k i c t} (hv : views y.members = views x.members) (hc : Chosen x f k)
      (hk : y.members[k]? = some c) (hi : c.threads[i]? = some (.submit t))
      (hs : Searching c.shared.view t.pc) : Alone o x y ⟨n, f, l, .await k i⟩
  | served {n f l k i c t} (hk : y.members[k]? = some c) (hi : c.threads[i]? = some (.submit t))
      (hs : t.pc.served = true) : Alone o x y ⟨n, f, l, .await k i⟩
  | poolOverload {n f l k v} (hc : Chosen x f k) (hv : (views x.members)[k]? = some v)
      (hr : v.Refuses) (hf : x.head.lbs = roundRobin → f = true) :
      Alone o x y ⟨n, f, l, .returned (some .poolOverload)⟩
  | returned {n f l r} (hr : r ≠ some .poolOverload) : Alone o x y ⟨n, f, l, .returned r⟩
  | blocking {t} (ho : o.nonblocking = false) (ht : Offered x.head t) : Alone o x y t

theorem Chosen.lt {x : Group MultiPoolCore PoolCore Thread} {f : Bool} {k : ℕ} (h : Chosen x f k)
    (hne : 0 < x.members.length) : k < x.members.length := by
  cases h with
  | rotation => exact Nat.mod_lt _ hne
  | scanned hs hk => exact length_views x.members ▸ List.lt_length_of_minIdxOn?_eq_some hk

theorem result_submit {pools : List Config} {k i : ℕ} {c : Config} {t : Submit} {r : Option Error}
    (hk : pools[k]? = some c) (hi : c.threads[i]? = some (.submit t))
    (h : resultAt pools k i = some r) :
    (∃ w, t.pc = .ok w ∧ r = none) ∨ ∃ e, t.pc = .err e ∧ r = some e := by
  rw [resultAt, hk, Option.bind_some, result, hi] at h
  simp only at h
  split at h
  · rename_i w hpc
    cases h
    exact .inl ⟨w, hpc, rfl⟩
  · rename_i e hpc
    cases h
    exact .inr ⟨e, hpc, rfl⟩
  · cases h

/-- A call that came to an overload was refused by the member as the dispatch found it. -/
theorem Alone.overload {o : Options} (ho : o.nonblocking = true)
    {x y : Group MultiPoolCore PoolCore Thread} {n f : Bool} {l : List (ℕ × ℕ)} {k i : ℕ}
    (h : Alone o x y ⟨n, f, l, .await k i⟩)
    (hr : resultAt y.members k i = some (some .poolOverload)) :
    views y.members = views x.members ∧ Chosen x f k ∧
      ∃ v, (views x.members)[k]? = some v ∧ v.Refuses := by
  cases h with
  | searching hv hc hk hi hs =>
      have hview := views_of_getElem? hk
      rw [hv] at hview
      obtain ⟨w, _, hnone⟩ | ⟨e, hpc, he⟩ := result_submit hk hi hr
      · cases hnone
      · cases he
        rw [hpc] at hs
        cases hs with
        | poolOverload hrefuses => exact ⟨hv, hc, _, hview, hrefuses⟩
  | served hk hi hs =>
      obtain ⟨w, _, hnone⟩ | ⟨e, hpc, he⟩ := result_submit hk hi hr
      · cases hnone
      · rw [hpc] at hs
        cases hs
  | blocking hb => exact (Bool.false_ne_true (hb.symm.trans ho)).elim

theorem alone_step {o : Options} {x y : Group MultiPoolCore PoolCore Thread} {t t' : Dispatch}
    {s' : MultiPoolCore} {call : Option (ℕ × Call)}
    (hx : x.head.lbs = roundRobin ∨ x.head.lbs = leastTasks) (hne : 0 < x.members.length)
    (hy : y.head.lbs = x.head.lbs) (h : Dispatch.Step y.head y.members t s' t' call)
    (ht : Alone o x y t) : Alone o x ⟨s', (AntsPool.program o).enter y.members call⟩ t' := by
  have hblocking (ho : o.nonblocking = false) (ht : Offered x.head t) :
      Alone o x ⟨s', (AntsPool.program o).enter y.members call⟩ t' :=
    .blocking ho (h.offered hy ht)
  cases h with
  | closed => exact .returned nofun
  | opened =>
      cases ht with
      | checkClosed hv hi =>
          rcases hx with hx | hx
          · rw [select, hy, if_pos hx]
            exact .ticket hv hi hx
          · rw [select, hy, hx, if_neg (by decide), if_pos rfl]
            exact .scan hv (.leastTasks hx) (Scanned.start _ _)
      | blocking ho ht => exact hblocking ho ht
  | ticket =>
      cases ht with
      | ticket hv hi h =>
          have hlen := length_eq_of_views hv
          have hticket : ticket y.head = ticket x.head := by rw [ticket, hi, ticket]
          refine .deliver hv ?_
          rw [hlen, hticket]
          exact .rotation h
      | blocking ho ht => exact hblocking ho ht
  | scanned hk =>
      cases ht with
      | scan hv hs hscan =>
          refine .deliver hv (.scanned hs (hscan.finish ?_ ?_))
          · rwa [← hv, length_views]
          · rw [← List.length_pos_iff, length_views]
            exact hne
      | blocking ho ht => exact hblocking ho ht
  | scanLess hk hr =>
      cases ht with
      | scan hv hs hscan =>
          have hview := views_of_getElem? hk
          rw [hv] at hview
          exact .scan hv hs (hscan.next_of_lt hview hr)
      | blocking ho ht => exact hblocking ho ht
  | scanNext hk hr =>
      cases ht with
      | scan hv hs hscan =>
          have hview := views_of_getElem? hk
          rw [hv] at hview
          exact .scan hv hs (hscan.next_of_le hview hr)
      | blocking ho ht => exact hblocking ho ht
  | @deliver n f l k =>
      cases ht with
      | deliver hv hc =>
          have hlt : k < y.members.length := (hc.lt hne).trans_eq (length_eq_of_views hv).symm
          have hk := List.getElem?_eq_getElem hlt
          have hentered : ((AntsPool.program o).enter y.members (some (k, .submit n)))[k]? =
              some ((AntsPool.program o).entered y.members[k] (.submit n)) := by
            rw [Facade.getElem?_enter_self, hk, Option.map_some]
          have hthread :
              ((AntsPool.program o).entered y.members[k] (.submit n)).threads[
                nextCall y.members k]? =
                some (Call.start y.members[k].threads.length (.submit n)) := by
            rw [nextCall, hk]
            exact List.getElem?_concat_length
          have hviews := (views_enter o y.members (some (k, .submit n))).trans hv
          exact .searching hviews hc hentered hthread .checkClosed
      | blocking ho ht => exact hblocking ho ht
  | fallback hr hl =>
      cases ho : o.nonblocking with
      | false => exact hblocking ho .await
      | true =>
          obtain ⟨hv, hc, v, hk, hrefuses⟩ := ht.overload ho hr
          rw [hy] at hl
          refine .scan hv ?_ (Scanned.start _ _)
          cases hc with
          | rotation h => exact .fallback h hk hrefuses
          | scanned hs =>
              cases hs with
              | leastTasks h => exact absurd (hl.symm.trans h) (by decide)
  | @returned n f l k i r hr hn =>
      cases ho : o.nonblocking with
      | false => exact hblocking ho .await
      | true =>
          by_cases hover : r = some .poolOverload
          · subst hover
            obtain ⟨hv, hc, v, hk, hrefuses⟩ := ht.overload ho hr
            exact .poolOverload hc hk hrefuses fun h => hn rfl (hy.trans h)
          · exact .returned hover

theorem alone_member {o : Options}
    {x y : Group MultiPoolCore PoolCore Thread} {n f : Bool} {l : List (ℕ × ℕ)} {k i : ℕ} {a : Env}
    {c c' : Config} (hk : y.members[k]? = some c)
    (hc : (AntsPool.program o).fire c (.step i a) = some c')
    (ht : Alone o x y ⟨n, f, l, .await k i⟩) :
    Alone o x ⟨y.head, y.members.set k c'⟩ ⟨n, f, l, .await k i⟩ := by
  obtain ⟨u, ⟨s', u', new⟩, hu, hn, rfl⟩ := Program.fire_step _ hc
  have hs := AntsPool.program_step hn
  have hset := List.getElem?_set_self (a := c.after i (s', u', new))
    (List.getElem?_eq_some_iff.mp hk).1
  cases ht with
  | searching hv hch hk' hi hsearch =>
      cases hk.symm.trans hk'
      cases hu.symm.trans hi
      cases hs with
      | submit hs =>
          rcases hs.searching hsearch with hserved | ⟨hview, hsearch⟩ | hblocking
          · exact .served hset (Config.getElem?_after_self hu) hserved
          · refine .searching ((views_set hk hview).trans hv) hch hset
              (Config.getElem?_after_self hu) ?_
            exact hview ▸ hsearch
          · exact .blocking hblocking .await
  | served hk' hi hserved =>
      cases hk.symm.trans hk'
      cases hu.symm.trans hi
      cases hs with
      | submit hs => exact .served hset (Config.getElem?_after_self hu) (hs.served hserved)
  | blocking hblocking ht => exact .blocking hblocking ht

/-- The call that client `d` waits for, when it is a dispatch. -/
def waitsFor (x : State) (d : ℕ) : Option (ℕ × ℕ) :=
  match x.threads[d]? with
  | some (.client (.dispatch t)) =>
      match t.pc with
      | .await k i => some (k, i)
      | _ => none
  | _ => none

/-- Only client `d` and the call it waits for take steps. -/
def alone (d : ℕ) (x : State) : Move → Prop
  | .step j .own => j = d
  | .step _ (.member k i _) => waitsFor x d = some (k, i)
  | .call _ => False

instance (d : ℕ) (x : State) : (m : Move) → Decidable (alone d x m)
  | .step j .own => inferInstanceAs (Decidable (j = d))
  | .step _ (.member k i _) => inferInstanceAs (Decidable (waitsFor x d = some (k, i)))
  | .call _ => inferInstanceAs (Decidable False)

/-- The configuration in which a dispatch has been called. -/
def dispatched (x : State) (stop : Bool) : State :=
  ⟨x.shared, x.threads ++ [.client (.dispatch { stop := stop })]⟩

theorem alone_run {o : Options} {x y : State} {n : Bool}
    (hx : x.shared.head.lbs = roundRobin ∨ x.shared.head.lbs = leastTasks)
    (hne : 0 < x.shared.members.length)
    (h : (program o).Reach (fun z => z = dispatched x n) (alone x.threads.length) y) :
    y.shared.head.lbs = x.shared.head.lbs ∧
      ∃ t, y.threads[x.threads.length]? = some (.client (.dispatch t)) ∧
        Alone o x.shared y.shared t := by
  refine Facade.invariant (J := fun y => y.shared.head.lbs = x.shared.head.lbs ∧
      ∃ t, y.threads[x.threads.length]? = some (.client (.dispatch t)) ∧
        Alone o x.shared y.shared t) ?_ ?_ ?_ h
  · rintro z rfl
    exact ⟨rfl, _, List.getElem?_concat_length, .checkClosed rfl rfl⟩
  · exact fun _ _ _ _ hg => hg.elim
  · rintro z j a r g' r' hr ⟨hlbs, t, ht, hal⟩ hg hj hs
    cases hs with
    | @member k i a c c' hk hc =>
        have hpc : t.pc = .await k i := by
          have hw : waitsFor z x.threads.length = some (k, i) := hg
          simp only [waitsFor, ht] at hw
          split at hw
          · rename_i hpc
            cases hw
            exact hpc
          · cases hw
        obtain ⟨n, f, l, pc⟩ := t
        cases hpc
        refine ⟨hlbs, _, Config.getElem?_after_ne ?_ ht, alone_member hk hc hal⟩
        rintro rfl
        cases hj.symm.trans ht
    | @client u s' u' call hn =>
        cases hg
        cases hj.symm.trans ht
        have hn : Client.next z.shared.head z.shared.members (.dispatch t) =
            some (s', u', call) := hn
        cases Client.next_step hn with
        | dispatch hs =>
            exact ⟨(Client.Step.dispatch hs).lbs.trans hlbs, _, Config.getElem?_after_self ht,
              alone_step hx hne hlbs hs hal⟩

/-- A dispatch that runs alone and fails with an overload has been refused by the member
next in rotation and by the first one with the fewest running workers: both have no
parked worker and no room, and every member has as many running workers as the latter
has capacity. All members refuse then exactly when none has a worker or room for the
payload beside one that refuses with no more running workers. -/
theorem overload_of_dispatch {o : Options} {G : Guard} (ho : o.nonblocking = true) {x y : State}
    (hx : Run o G x) (hlbs : x.shared.head.lbs = roundRobin) {n : Bool}
    (hy : (program o).Reach (fun z => z = dispatched x n) (alone x.threads.length) y) {t : Dispatch}
    (ht : y.threads[x.threads.length]? = some (.client (.dispatch t)))
    (hr : t.pc = .returned (some .poolOverload)) :
    (∃ v k w, (views x.shared.members)[ticket x.shared.head % x.shared.members.length]? = some v ∧
      v.Refuses ∧ leastRunning x.shared.members = some k ∧
      (views x.shared.members)[k]? = some w ∧ w.Refuses ∧
      ∀ u ∈ views x.shared.members, w.capacity ≤ u.running) ∧
    ((∀ v ∈ views x.shared.members, v.Refuses) ↔
      ∀ u ∈ views x.shared.members, ∀ v ∈ views x.shared.members,
        u.running ≤ v.running → u.Refuses → v.Refuses) := by
  obtain ⟨_, t', ht', hal⟩ := alone_run hx.shape.1 hx.shape.2 hy
  cases ht.symm.trans ht'
  obtain ⟨n, f, l, pc⟩ := t
  cases hr
  cases hal with
  | returned hne => exact (hne rfl).elim
  | blocking hblocking => exact (Bool.false_ne_true (hblocking.symm.trans ho)).elim
  | poolOverload hc hw hrefuses hf =>
      cases hf hlbs
      cases hc with
      | scanned hs hk =>
          cases hs with
          | fallback _ hv hrv =>
              obtain ⟨w, hw', hleast⟩ := least_of_minIdxOn? hk
              cases hw.symm.trans hw'
              refine ⟨⟨_, _, _, hv, hrv, hk, hw, hrefuses, fun u hu =>
                hrefuses.2.2.trans (hleast u hu)⟩, fun hall u _ v hv _ _ => hall v hv, ?_⟩
              -- the member tried last has as few running workers as any
              intro hpairs v hv
              exact hpairs _ (List.mem_of_getElem? hw) v hv (hleast v hv) hrefuses

/-! Two nonblocking pools with one slot each, whose workers have been started. -/

def nonblockingOptions : Options := { disablePurge := true, nonblocking := true }

def nonblockingPool : Config :=
  (((PoolCore.new 1 nonblockingOptions 0).get rfl).toOption.get rfl).2

def nonblockingPools : State :=
  ((new 2 roundRobin fun _ => some (.ok nonblockingPool)).get rfl).toOption.get rfl

theorem nonblockingPools_starts : Starts nonblockingOptions nonblockingPools := by
  refine ⟨2, roundRobin, fun _ => some (.ok nonblockingPool), fun _ c hc => ?_, rfl⟩
  cases hc
  exact ⟨1, nonblockingOptions, 0, rfl⟩

/-- One payload goes to each pool. The first worker runs its payload, and the second
takes `m` steps. -/
def bothStarted (m : ℕ) : List Move :=
  .call (.submit false) :: own 1 3 ++ inside 0 2 7 ++ own 1 1 ++ inside 0 3 1 ++
    .call (.submit false) :: own 2 3 ++ inside 1 2 7 ++ own 2 1 ++ inside 1 3 m

/-- A third payload is offered to the first pool twice. -/
def refusedTwice : List Move :=
  own 3 3 ++ inside 0 4 4 ++ own 3 5 ++ inside 0 5 4 ++ own 3 1

/-- Both workers run a payload. -/
def busyPools : State :=
  ((program nonblockingOptions).run (fun _ _ => True) nonblockingPools (bothStarted 1)).get
    (by decide)

/-- The worker of the second pool is parked. -/
def tiedPools : State :=
  ((program nonblockingOptions).run (fun _ _ => True) nonblockingPools (bothStarted 8)).get
    (by decide)

theorem busyPools_run : Run nonblockingOptions (fun _ _ => True) busyPools :=
  Program.Reach.run (.init nonblockingPools_starts) (Option.some_get _).symm

theorem tiedPools_run : Run nonblockingOptions (fun _ _ => True) tiedPools :=
  Program.Reach.run (.init nonblockingPools_starts) (Option.some_get _).symm

theorem overload_of_dispatch_busy :
    (∃ v k w, (views busyPools.shared.members)[0]? = some v ∧ v.Refuses ∧
      leastRunning busyPools.shared.members = some k ∧
      (views busyPools.shared.members)[k]? = some w ∧ w.Refuses ∧
      ∀ u ∈ views busyPools.shared.members, w.capacity ≤ u.running) ∧
    ((∀ v ∈ views busyPools.shared.members, v.Refuses) ↔
      ∀ u ∈ views busyPools.shared.members, ∀ v ∈ views busyPools.shared.members,
        u.running ≤ v.running → u.Refuses → v.Refuses) := by
  obtain ⟨y, hy, hφ⟩ := Program.Reach.exists_of_run
    (P := program nonblockingOptions) (I := fun z => z = dispatched busyPools false)
    (G := alone 3) (x := dispatched busyPools false) (m := refusedTwice)
    (φ := fun y => y.threads[3]? = some (.client (.dispatch
      ⟨false, true, [(0, 5), (0, 4)], .returned (some .poolOverload)⟩))) rfl (by decide)
  exact overload_of_dispatch (by decide) busyPools_run rfl hy (of_decide_eq_true hφ) rfl

/-- The second pool has a parked worker, and both have one running worker: the overloaded
first pool is tried again and the payload is refused. -/
theorem overload_beside_parked_worker :
    Run nonblockingOptions (fun _ _ => True) tiedPools ∧
      tiedPools.shared.head.lbs = roundRobin ∧
      (∀ c ∈ tiedPools.shared.members, c.shared.state = .opened) ∧
      ∃ y t, (program nonblockingOptions).Reach (fun z => z = dispatched tiedPools false)
          (alone tiedPools.threads.length) y ∧
        y.threads[tiedPools.threads.length]? = some (.client (.dispatch t)) ∧
        t.pc = .returned (some .poolOverload) ∧
        ¬ ∀ v ∈ views tiedPools.shared.members, v.items = [] ∧ v.capacity ≤ v.running := by
  refine ⟨tiedPools_run, rfl, by decide, ?_⟩
  obtain ⟨y, hy, hφ⟩ := Program.Reach.exists_of_run
    (P := program nonblockingOptions) (I := fun z => z = dispatched tiedPools false)
    (G := alone 3) (x := dispatched tiedPools false) (m := refusedTwice)
    (φ := fun y => y.threads[3]? = some (.client (.dispatch
      ⟨false, true, [(0, 5), (0, 4)], .returned (some .poolOverload)⟩))) rfl (by decide)
  exact ⟨y, _, hy, of_decide_eq_true hφ, rfl, by decide⟩

end MultiPool

end AntsPool
