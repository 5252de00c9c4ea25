import AntsPool.Facade
import AntsPool.PoolRuns

/-!
# Several pools behind one façade

`MultiPoolCore` has the fields of the source but the pools, which are the members of
a group: the configurations of `program`, each with the threads inside it. A client
is one call on the multi-pool. It makes a call on a member in one step and goes on
when that call has returned; the threads that `release_pools` spawns are such calls,
made one after the other and not waited for until all are made.
-/
namespace AntsPool.MultiPool
open Interleaving

structure LoadBalancingStrategy where
  value : ℤ
deriving Repr, DecidableEq

def roundRobin : LoadBalancingStrategy := ⟨2⟩

def leastTasks : LoadBalancingStrategy := ⟨4⟩

structure MultiPoolCore where
  /-- A `u32`. -/
  index : ℕ
  state : PoolState
  lbs : LoadBalancingStrategy
deriving Repr, DecidableEq

def MultiPoolCore.isClosed (s : MultiPoolCore) : Bool := s.state == .closed

/-- `make_pool` called `n` times. The pools made before one that fails are released
and dropped. -/
def makePools (makePool : ℕ → Option (Except Error Config)) :
    ℕ → Option (Except Error (List Config))
  | 0 => some (.ok [])
  | n + 1 => (makePools makePool n).bind fun
      | .error e => some (.error e)
      | .ok pools => (makePool n).map fun pool => pool.map fun c => pools ++ [c]

inductive DispatchPc
  | checkClosed
  | ticket
  | scan (candidate : ℕ) (least : Option ℤ) (index : ℕ)
  | deliver (k : ℕ)
  | await (k i : ℕ)
  | returned (result : Option Error)
  | panicked
deriving DecidableEq

/-- A call of `dispatch`. `fallback` tells the second attempt from the first, and
`tried` records the members tried with the calls made there, the latest first. -/
structure Dispatch where
  stop : Bool
  fallback : Bool := false
  tried : List (ℕ × ℕ) := []
  pc : DispatchPc := .checkClosed
deriving DecidableEq

inductive ReleaseContextPc
  | exchange
  | spawn (handles : List ℕ)
  | join (handles : List ℕ) (outcomes : List (Option Error))
  | returned (result : Option Error)
deriving DecidableEq

inductive RebootPc
  | exchange
  | storeIndex
  | call (k : ℕ)
  | await (k i : ℕ)
  | returned
deriving DecidableEq

inductive TunePc
  | call (k : ℕ)
  | await (k i : ℕ)
  | returned
deriving DecidableEq

inductive Client
  | dispatch (t : Dispatch)
  | releaseContext (hasCtx : Bool) (pc : ReleaseContextPc)
  | reboot (pc : RebootPc)
  | tune (size : ℤ) (pc : TunePc)
deriving DecidableEq

abbrev State := Interleaving.Config (Group MultiPoolCore PoolCore Thread) (Role Client)

/-- `MultiPoolCore::new`, with the thread that stands for those inside the pools. -/
def new (size : ℤ) (lbs : LoadBalancingStrategy) (makePool : ℕ → Option (Except Error Config)) :
    Option (Except Error State) :=
  if size ≤ 0 then some (.error .invalidMultiPoolSize)
  else if lbs ≠ roundRobin ∧ lbs ≠ leastTasks then some (.error .invalidLoadBalancingStrategy)
  else (makePools makePool size.toNat).map fun pools => pools.map fun pools =>
    ⟨⟨⟨2 ^ 32 - 1, .opened, lbs⟩, pools⟩, [.members]⟩

/-- The `make_pool` of `MultiPool::new`; the clock may read otherwise for each pool. -/
def makePool (sizePerPool : ℤ) (options : Options) (clock : ℕ → ℤ) (i : ℕ) :
    Option (Except Error Config) :=
  (PoolCore.new sizePerPool options (clock i)).map fun r => r.map Prod.snd

/-! ## What a member's call has come to -/

/-- The result of call number `i` on a member; `none` while it has not returned. -/
def result (c : Config) (i : ℕ) : Option (Option Error) :=
  match c.threads[i]? with
  | some (.submit t) =>
      match t.pc with
      | .ok _ => some none
      | .err e => some (some e)
      | _ => none
  | some (.release t) =>
      match t.pc with
      | .returned r => some r
      | _ => none
  | some (.reboot .returned) | some (.tune .returned) => some none
  | _ => none

def resultAt (pools : List Config) (k i : ℕ) : Option (Option Error) :=
  pools[k]?.bind fun c => result c i

/-! ## The steps of the clients -/

/-- The number of the call that comes next on member `k`. -/
def nextCall (pools : List Config) (k : ℕ) : ℕ :=
  match pools[k]? with
  | some c => c.threads.length
  | none => 0

/-- `next`, where it starts. No pool has the index `-1` of an unknown strategy. -/
def select (lbs : LoadBalancingStrategy) : DispatchPc :=
  if lbs = roundRobin then .ticket
  else if lbs = leastTasks then .scan 0 none 0
  else .panicked

/-- `index.fetch_add(1)` on a `u32`. -/
def ticket (s : MultiPoolCore) : ℕ := (s.index + 1) % 2 ^ 32

namespace Dispatch

def next (s : MultiPoolCore) (pools : List Config) (t : Dispatch) :
    Option (MultiPoolCore × Dispatch × Option (ℕ × Call)) :=
  match t.pc with
  | .checkClosed =>
      some (s, { t with pc := if s.isClosed then .returned (some .poolClosed) else select s.lbs },
        none)
  | .ticket =>
      some ({ s with index := ticket s }, { t with pc := .deliver (ticket s % pools.length) }, none)
  -- the counters of the model have no largest value, so `i32::MAX` is `none`
  | .scan candidate least index =>
      match pools[candidate]? with
      | none => some (s, { t with pc := .deliver index }, none)
      | some c =>
          if ∀ m ∈ least, c.shared.running < m then
            some (s, { t with pc := .scan (candidate + 1) (some c.shared.running) candidate },
              none)
          else some (s, { t with pc := .scan (candidate + 1) least index }, none)
  | .deliver k =>
      let i := nextCall pools k
      some (s, { t with pc := .await k i, tried := (k, i) :: t.tried }, some (k, .submit t.stop))
  | .await k i =>
      (resultAt pools k i).map fun result =>
        if result = some .poolOverload ∧ s.lbs = roundRobin ∧ t.fallback = false then
          (s, { t with fallback := true, pc := select leastTasks }, none)
        else (s, { t with pc := .returned result }, none)
  | .returned _ => none
  | .panicked => none

end Dispatch

/-- The segment of pool `index` in the error of `release_pools`. -/
def segment (index : ℕ) (err : Error) : String := "pool " ++ toString index ++ ": " ++ err.message

/-- The outcomes in the order of the pools, as one error. No segment ends with the
separator, so only the one after the last is trimmed. -/
def aggregate (outcomes : List (Option Error)) : Option Error :=
  match outcomes.filterMap (fun r => r.map Error.message) with
  | [] => none
  | detail => some (.pools (" | ".intercalate detail))

def ReleaseContextPc.next (s : MultiPoolCore) (pools : List Config) (hasCtx : Bool) :
    ReleaseContextPc → Option (MultiPoolCore × ReleaseContextPc × Option (ℕ × Call))
  | .exchange =>
      if s.isClosed then some (s, .returned (some .poolClosed), none)
      else some ({ s with state := .closed }, .spawn [], none)
  | .spawn handles =>
      if handles.length < pools.length then
        some (s, .spawn (handles ++ [nextCall pools handles.length]),
          some (handles.length, .releaseContext hasCtx))
      else some (s, .join handles [], none)
  | .join handles outcomes =>
      match handles[outcomes.length]? with
      | none => some (s, .returned (aggregate outcomes), none)
      | some i => (resultAt pools outcomes.length i).map fun r =>
          (s, .join handles (outcomes ++ [r.map fun err => .pools (segment outcomes.length err)]),
            none)
  | .returned _ => none

def RebootPc.next (s : MultiPoolCore) (pools : List Config) :
    RebootPc → Option (MultiPoolCore × RebootPc × Option (ℕ × Call))
  | .exchange =>
      if s.isClosed then some ({ s with state := .opened }, .storeIndex, none)
      else some (s, .returned, none)
  | .storeIndex => some ({ s with index := 0 }, .call 0, none)
  | .call k =>
      if k < pools.length then some (s, .await k (nextCall pools k), some (k, .reboot))
      else some (s, .returned, none)
  | .await k i => (resultAt pools k i).map fun _ => (s, .call (k + 1), none)
  | .returned => none

def TunePc.next (s : MultiPoolCore) (pools : List Config) (size : ℤ) :
    TunePc → Option (MultiPoolCore × TunePc × Option (ℕ × Call))
  | .call k =>
      if k < pools.length then some (s, .await k (nextCall pools k), some (k, .tune size))
      else some (s, .returned, none)
  | .await k i => (resultAt pools k i).map fun _ => (s, .call (k + 1), none)
  | .returned => none

def Client.next (s : MultiPoolCore) (pools : List Config) :
    Client → Option (MultiPoolCore × Client × Option (ℕ × Call))
  | .dispatch t => (t.next s pools).map fun r => (r.1, .dispatch r.2.1, r.2.2)
  | .releaseContext hasCtx pc =>
      (pc.next s pools hasCtx).map fun r => (r.1, .releaseContext hasCtx r.2.1, r.2.2)
  | .reboot pc => (pc.next s pools).map fun r => (r.1, .reboot r.2.1, r.2.2)
  | .tune size pc => (pc.next s pools size).map fun r => (r.1, .tune size r.2.1, r.2.2)

inductive Request
  | submit (stop : Bool)
  | releaseContext (hasCtx : Bool)
  | reboot
  | tune (size : ℤ)
deriving DecidableEq

def Request.start : Request → Client
  | .submit stop => .dispatch { stop := stop }
  | .releaseContext hasCtx => .releaseContext hasCtx .exchange
  | .reboot => .reboot .exchange
  | .tune size => .tune size (.call 0)

def facade : Facade PoolCore Thread Call MultiPoolCore Client Request where
  start _ r := r.start
  next s pools t := t.next s pools

/-- A multi-pool over pools with options `o`. -/
def program (o : Options) : Program (Group MultiPoolCore PoolCore Thread) (Role Client) Request
    (Turn Env) :=
  facade.program (AntsPool.program o)

/-! ## Runs -/

abbrev Move := Interleaving.Move Request (Turn Env)

abbrev Guard := State → Move → Prop

/-- The configurations that `new` returns for a `make_pool` that makes pools with
options `o`. -/
def Starts (o : Options) (x : State) : Prop :=
  ∃ size lbs mk, (∀ i c, mk i = some (.ok c) → AntsPool.Starts o c) ∧
    new size lbs mk = some (.ok x)

abbrev Run (o : Options) (G : Guard) (x : State) : Prop := (program o).Reach (Starts o) G x

theorem makePools_spec {mk : ℕ → Option (Except Error Config)} {n : ℕ} {pools : List Config}
    (h : makePools mk n = some (.ok pools)) :
    pools.length = n ∧ ∀ c ∈ pools, ∃ i, mk i = some (.ok c) := by
  induction n generalizing pools with
  | zero =>
      cases h
      exact ⟨rfl, fun c hc => absurd hc List.not_mem_nil⟩
  | succ n ih =>
      rw [makePools] at h
      obtain ⟨r, hr, h⟩ := Option.bind_eq_some_iff.mp h
      cases r with
      | error e => cases h
      | ok front =>
          obtain ⟨hlen, hfront⟩ := ih hr
          obtain ⟨pool, hpool, h⟩ := Option.map_eq_some_iff.mp h
          cases pool with
          | error e => cases h
          | ok c =>
              cases h
              refine ⟨by simp [hlen], fun d hd => ?_⟩
              rcases List.mem_append.mp hd with hd | hd
              · exact hfront d hd
              · exact ⟨n, List.mem_singleton.mp hd ▸ hpool⟩

/-- All that `MultiPoolCore::new` can return. -/
theorem new_ok {size : ℤ} {lbs : LoadBalancingStrategy} {mk : ℕ → Option (Except Error Config)}
    {x : State} (h : new size lbs mk = some (.ok x)) :
    0 < size ∧ (lbs = roundRobin ∨ lbs = leastTasks) ∧
    ∃ pools : List Config, pools.length = size.toNat ∧
      (∀ c ∈ pools, ∃ i, mk i = some (.ok c)) ∧
      x = ⟨⟨⟨2 ^ 32 - 1, .opened, lbs⟩, pools⟩, [.members]⟩ := by
  unfold new at h
  split_ifs at h with hsize hlbs
  · cases h
  · cases h
  · obtain ⟨r, hr, h⟩ := Option.map_eq_some_iff.mp h
    cases r with
    | error e => cases h
    | ok pools =>
        obtain ⟨hlen, hpools⟩ := makePools_spec hr
        exact ⟨not_le.mp hsize, by tauto, pools, hlen, hpools, (Except.ok.inj h).symm⟩

/-- What the proofs about runs need of a new multi-pool. -/
structure Fresh (o : Options) (x : State) : Prop where
  threads : x.threads = [.members]
  state : x.shared.head.state = .opened
  lbs : x.shared.head.lbs = roundRobin ∨ x.shared.head.lbs = leastTasks
  index : x.shared.head.index < 2 ^ 32
  members : ∀ c ∈ x.shared.members, AntsPool.Starts o c
  inhabited : 0 < x.shared.members.length

theorem Starts.fresh {o : Options} {x : State} (h : Starts o x) : Fresh o x := by
  obtain ⟨size, lbs, mk, hmk, h⟩ := h
  obtain ⟨hsize, hlbs, pools, hlen, hpools, rfl⟩ := new_ok h
  refine ⟨rfl, rfl, hlbs, Nat.sub_one_lt (by decide), fun c hc => ?_, ?_⟩
  · obtain ⟨i, hi⟩ := hpools c hc
    exact hmk i c hi
  · change 0 < pools.length
    omega

/-- Every pool of a reached multi-pool is reached by the steps of a pool. -/
theorem Run.member_run {o : Options} {G : Guard} {x : State} (h : Run o G x) {k : ℕ} {c : Config}
    (hk : x.shared.members[k]? = some c) : AntsPool.Run o anyMove c :=
  Facade.member_reach (fun _ hx => hx.fresh.members) (fun _ _ => trivial)
    (fun y m _ => Facade.lift_of_forall (fun _ _ => trivial) y m) h hk

/-! Two pools with one slot each, and moves for the small runs. -/

def smallPools : State :=
  ((new 2 roundRobin fun _ => some (.ok smallPool)).get rfl).toOption.get rfl

theorem smallPools_starts : Starts smallOptions smallPools := by
  refine ⟨2, roundRobin, fun _ => some (.ok smallPool), fun _ c hc => ?_, rfl⟩
  cases hc
  exact smallPool_starts

/-- Client `j` takes `n` steps. -/
def own (j n : ℕ) : List Move := List.replicate n (.step j .own)

/-- Thread `i` of member `k` takes `n` steps in which nothing fails. -/
def inside (k i n : ℕ) : List Move := List.replicate n (.step 0 (.member k i .ok))

end AntsPool.MultiPool
