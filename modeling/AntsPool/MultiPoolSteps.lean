import AntsPool.MultiPool

/-!
# What a step of a client of the multi-pool can do

The step functions of the clients as relations, one constructor for each branch, with
the call into a member that the step makes.
-/
namespace AntsPool.MultiPool
open Interleaving

inductive Dispatch.Step (s : MultiPoolCore) (pools : List Config) :
    Dispatch → MultiPoolCore → Dispatch → Option (ℕ × Call) → Prop
  | closed {n f l} (h : s.state = .closed) :
      Step s pools ⟨n, f, l, .checkClosed⟩ s ⟨n, f, l, .returned (some .poolClosed)⟩ none
  | opened {n f l} (h : s.state = .opened) :
      Step s pools ⟨n, f, l, .checkClosed⟩ s ⟨n, f, l, select s.lbs⟩ none
  | ticket {n f l} :
      Step s pools ⟨n, f, l, .ticket⟩ { s with index := ticket s }
        ⟨n, f, l, .deliver (ticket s % pools.length)⟩ none
  | scanned {n f l k least index} (hk : pools.length ≤ k) :
      Step s pools ⟨n, f, l, .scan k least index⟩ s ⟨n, f, l, .deliver index⟩ none
  | scanLess {n f l k c least index} (hk : pools[k]? = some c)
      (hr : ∀ m ∈ least, c.shared.running < m) :
      Step s pools ⟨n, f, l, .scan k least index⟩ s
        ⟨n, f, l, .scan (k + 1) (some c.shared.running) k⟩ none
  | scanNext {n f l k c least index} (hk : pools[k]? = some c)
      (hr : ∃ m ∈ least, m ≤ c.shared.running) :
      Step s pools ⟨n, f, l, .scan k least index⟩ s ⟨n, f, l, .scan (k + 1) least index⟩ none
  | deliver {n f l k} :
      Step s pools ⟨n, f, l, .deliver k⟩ s
        ⟨n, f, (k, nextCall pools k) :: l, .await k (nextCall pools k)⟩ (some (k, .submit n))
  | fallback {n l k i} (hr : resultAt pools k i = some (some .poolOverload))
      (hl : s.lbs = roundRobin) :
      Step s pools ⟨n, false, l, .await k i⟩ s ⟨n, true, l, .scan 0 none 0⟩ none
  | returned {n f l k i r} (hr : resultAt pools k i = some r)
      (hn : r = some .poolOverload → s.lbs = roundRobin → f = true) :
      Step s pools ⟨n, f, l, .await k i⟩ s ⟨n, f, l, .returned r⟩ none

inductive ReleaseContextPc.Step (s : MultiPoolCore) (pools : List Config) (hasCtx : Bool) :
    ReleaseContextPc → MultiPoolCore → ReleaseContextPc → Option (ℕ × Call) → Prop
  | refused (h : s.state = .closed) :
      Step s pools hasCtx .exchange s (.returned (some .poolClosed)) none
  | exchange (h : s.state = .opened) :
      Step s pools hasCtx .exchange { s with state := .closed } (.spawn []) none
  | spawn {handles} (h : handles.length < pools.length) :
      Step s pools hasCtx (.spawn handles) s (.spawn (handles ++ [nextCall pools handles.length]))
        (some (handles.length, .releaseContext hasCtx))
  | spawned {handles} (h : pools.length ≤ handles.length) :
      Step s pools hasCtx (.spawn handles) s (.join handles []) none
  | joined {handles outcomes} (h : handles.length ≤ outcomes.length) :
      Step s pools hasCtx (.join handles outcomes) s (.returned (aggregate outcomes)) none
  | join {handles outcomes i r} (hi : handles[outcomes.length]? = some i)
      (hr : resultAt pools outcomes.length i = some r) :
      Step s pools hasCtx (.join handles outcomes) s
        (.join handles
          (outcomes ++ [r.map fun err => .pools (segment outcomes.length err)])) none

inductive RebootPc.Step (s : MultiPoolCore) (pools : List Config) :
    RebootPc → MultiPoolCore → RebootPc → Option (ℕ × Call) → Prop
  | exchangeFails (h : s.state = .opened) : Step s pools .exchange s .returned none
  | exchange (h : s.state = .closed) :
      Step s pools .exchange { s with state := .opened } .storeIndex none
  | storeIndex : Step s pools .storeIndex { s with index := 0 } (.call 0) none
  | call {k} (h : k < pools.length) :
      Step s pools (.call k) s (.await k (nextCall pools k)) (some (k, .reboot))
  | finished {k} (h : pools.length ≤ k) : Step s pools (.call k) s .returned none
  | await {k i r} (hr : resultAt pools k i = some r) :
      Step s pools (.await k i) s (.call (k + 1)) none

inductive TunePc.Step (pools : List Config) (size : ℤ) :
    TunePc → TunePc → Option (ℕ × Call) → Prop
  | call {k} (h : k < pools.length) :
      Step pools size (.call k) (.await k (nextCall pools k)) (some (k, .tune size))
  | finished {k} (h : pools.length ≤ k) : Step pools size (.call k) .returned none
  | await {k i r} (hr : resultAt pools k i = some r) :
      Step pools size (.await k i) (.call (k + 1)) none

inductive Client.Step (s : MultiPoolCore) (pools : List Config) :
    Client → MultiPoolCore → Client → Option (ℕ × Call) → Prop
  | dispatch {t s' t' call} :
      Dispatch.Step s pools t s' t' call → Step s pools (.dispatch t) s' (.dispatch t') call
  | releaseContext {b t s' t' call} : ReleaseContextPc.Step s pools b t s' t' call →
      Step s pools (.releaseContext b t) s' (.releaseContext b t') call
  | reboot {t s' t' call} :
      RebootPc.Step s pools t s' t' call → Step s pools (.reboot t) s' (.reboot t') call
  | tune {size t t' call} :
      TunePc.Step pools size t t' call → Step s pools (.tune size t) s (.tune size t') call

theorem MultiPoolCore.isClosed_iff (s : MultiPoolCore) : s.isClosed = true ↔ s.state = .closed := by
  simp [isClosed]

theorem MultiPoolCore.opened_of_not_isClosed {s : MultiPoolCore} (h : ¬ s.isClosed = true) :
    s.state = .opened := by
  rw [isClosed_iff] at h
  cases hs : s.state with
  | opened => rfl
  | closed => exact (h hs).elim

theorem Dispatch.next_step {s : MultiPoolCore} {pools : List Config} {t : Dispatch}
    {r : MultiPoolCore × Dispatch × Option (ℕ × Call)} (h : t.next s pools = some r) :
    Dispatch.Step s pools t r.1 r.2.1 r.2.2 := by
  obtain ⟨n, f, l, pc⟩ := t
  cases pc with
  | checkClosed =>
      simp only [next] at h
      split at h
      · rename_i hc
        cases h
        exact .closed (s.isClosed_iff.mp hc)
      · rename_i hc
        cases h
        exact .opened (MultiPoolCore.opened_of_not_isClosed hc)
  | ticket =>
      cases h
      exact .ticket
  | scan k least index =>
      simp only [next] at h
      split at h
      · rename_i hk
        cases h
        exact .scanned (List.getElem?_eq_none_iff.mp hk)
      · rename_i c hk
        split at h
        · rename_i hr
          cases h
          exact .scanLess hk hr
        · rename_i hr
          cases h
          push Not at hr
          exact .scanNext hk hr
  | deliver k =>
      cases h
      exact .deliver
  | await k i =>
      obtain ⟨r, hr, h⟩ := Option.map_eq_some_iff.mp h
      split at h
      · rename_i hf
        obtain ⟨rfl, hl, hf⟩ := hf
        cases hf
        cases h
        exact .fallback hr hl
      · rename_i hf
        cases h
        refine .returned hr fun hover hl => ?_
        cases f with
        | false => exact (hf ⟨hover, hl, rfl⟩).elim
        | true => rfl
  | returned r => cases h
  | panicked => cases h

theorem ReleaseContextPc.next_step {s : MultiPoolCore} {pools : List Config} {b : Bool}
    {t : ReleaseContextPc} {r : MultiPoolCore × ReleaseContextPc × Option (ℕ × Call)}
    (h : t.next s pools b = some r) : ReleaseContextPc.Step s pools b t r.1 r.2.1 r.2.2 := by
  cases t with
  | exchange =>
      simp only [next] at h
      split at h
      · rename_i hc
        cases h
        exact .refused (s.isClosed_iff.mp hc)
      · rename_i hc
        cases h
        exact .exchange (MultiPoolCore.opened_of_not_isClosed hc)
  | spawn handles =>
      simp only [next] at h
      split at h
      · rename_i hlt
        cases h
        exact .spawn hlt
      · rename_i hlt
        cases h
        exact .spawned (not_lt.mp hlt)
  | join handles outcomes =>
      simp only [next] at h
      split at h
      · rename_i hi
        cases h
        exact .joined (List.getElem?_eq_none_iff.mp hi)
      · rename_i i hi
        obtain ⟨r, hr, rfl⟩ := Option.map_eq_some_iff.mp h
        exact .join hi hr
  | returned r => cases h

theorem RebootPc.next_step {s : MultiPoolCore} {pools : List Config} {t : RebootPc}
    {r : MultiPoolCore × RebootPc × Option (ℕ × Call)} (h : t.next s pools = some r) :
    RebootPc.Step s pools t r.1 r.2.1 r.2.2 := by
  cases t with
  | exchange =>
      simp only [next] at h
      split at h
      · rename_i hc
        cases h
        exact .exchange (s.isClosed_iff.mp hc)
      · rename_i hc
        cases h
        exact .exchangeFails (MultiPoolCore.opened_of_not_isClosed hc)
  | storeIndex =>
      cases h
      exact .storeIndex
  | call k =>
      simp only [next] at h
      split at h
      · rename_i hlt
        cases h
        exact .call hlt
      · rename_i hlt
        cases h
        exact .finished (not_lt.mp hlt)
  | await k i =>
      obtain ⟨r, hr, rfl⟩ := Option.map_eq_some_iff.mp h
      exact .await hr
  | returned => cases h

theorem TunePc.next_step {s : MultiPoolCore} {pools : List Config} {size : ℤ} {t : TunePc}
    {r : MultiPoolCore × TunePc × Option (ℕ × Call)} (h : t.next s pools size = some r) :
    TunePc.Step pools size t r.2.1 r.2.2 ∧ r.1 = s := by
  cases t with
  | call k =>
      simp only [next] at h
      split at h
      · rename_i hlt
        cases h
        exact ⟨.call hlt, rfl⟩
      · rename_i hlt
        cases h
        exact ⟨.finished (not_lt.mp hlt), rfl⟩
  | await k i =>
      obtain ⟨r, hr, rfl⟩ := Option.map_eq_some_iff.mp h
      exact ⟨.await hr, rfl⟩
  | returned => cases h

theorem Client.next_step {s : MultiPoolCore} {pools : List Config} {t : Client}
    {r : MultiPoolCore × Client × Option (ℕ × Call)} (h : t.next s pools = some r) :
    Client.Step s pools t r.1 r.2.1 r.2.2 := by
  cases t with
  | dispatch t =>
      obtain ⟨q, hq, rfl⟩ := Option.map_eq_some_iff.mp h
      exact .dispatch (Dispatch.next_step hq)
  | releaseContext b t =>
      obtain ⟨q, hq, rfl⟩ := Option.map_eq_some_iff.mp h
      exact .releaseContext (ReleaseContextPc.next_step hq)
  | reboot t =>
      obtain ⟨q, hq, rfl⟩ := Option.map_eq_some_iff.mp h
      exact .reboot (RebootPc.next_step hq)
  | tune size t =>
      obtain ⟨⟨s', q⟩, hq, rfl⟩ := Option.map_eq_some_iff.mp h
      obtain ⟨hs, rfl⟩ := TunePc.next_step hq
      exact .tune hs

/-- The rule for invariants: the threads inside the members and the clients take their
steps. -/
theorem Run.invariant {o : Options} {G : Guard} {J : State → Prop} (init : ∀ x, Fresh o x → J x)
    (call : ∀ x d, Run o G x → J x → G x (.call d) →
      J ⟨x.shared, x.threads ++ [.client d.start]⟩)
    (member : ∀ x j k i a c c', Run o G x → J x → G x (.step j (.member k i a)) →
      x.shared.members[k]? = some c → (AntsPool.program o).fire c (.step i a) = some c' →
      J ⟨⟨x.shared.head, x.shared.members.set k c'⟩, x.threads⟩)
    (client : ∀ x j t s' t' call, Run o G x → J x → G x (.step j .own) →
      x.threads[j]? = some (.client t) →
      Client.Step x.shared.head x.shared.members t s' t' call →
      J (x.after j (⟨s', (AntsPool.program o).enter x.shared.members call⟩, .client t', [])))
    {x : State} (h : Run o G x) : J x := by
  refine Facade.invariant (fun x hx => init x hx.fresh) call ?_ h
  intro y j a r g' r' hr hy hg ht hs
  cases hs with
  | @member k i a c c' hk hc =>
      have hset : y.threads.set j .members = y.threads := by
        obtain ⟨hlt, heq⟩ := List.getElem?_eq_some_iff.mp ht
        rw [← heq, List.set_getElem_self]
      simpa only [Config.after, hset, List.append_nil] using member y j k i a c c' hr hy hg hk hc
  | client hn => exact client y j _ _ _ _ hr hy hg ht (Client.next_step hn)

/-- Only a pool that exists returns a result. -/
theorem lt_of_resultAt {pools : List Config} {k i : ℕ} {r : Option Error}
    (h : resultAt pools k i = some r) : k < pools.length := by
  obtain ⟨c, hc, _⟩ := Option.bind_eq_some_iff.mp h
  exact (List.getElem?_eq_some_iff.mp hc).1

theorem Client.Step.lbs {s s' : MultiPoolCore} {pools : List Config} {t t' : Client}
    {call : Option (ℕ × Call)} (h : Client.Step s pools t s' t' call) : s'.lbs = s.lbs := by
  cases h with
  | dispatch h => cases h <;> rfl
  | releaseContext h => cases h <;> rfl
  | reboot h => cases h <;> rfl
  | tune h => rfl

/-- The strategy of a multi-pool is one of the two, and it has a pool. -/
theorem Run.shape {o : Options} {G : Guard} {x : State} (h : Run o G x) :
    (x.shared.head.lbs = roundRobin ∨ x.shared.head.lbs = leastTasks) ∧
      0 < x.shared.members.length := by
  refine Run.invariant (J := fun x => (x.shared.head.lbs = roundRobin ∨
    x.shared.head.lbs = leastTasks) ∧ 0 < x.shared.members.length) ?_ ?_ ?_ ?_ h
  · exact fun y hy => ⟨hy.lbs, hy.inhabited⟩
  · exact fun _ _ _ hy _ => hy
  · intro y j k i a c c' _ hy _ _ _
    exact ⟨hy.1, List.length_set.symm ▸ hy.2⟩
  · intro y j t s' t' call _ hy _ _ hs
    exact ⟨hs.lbs.symm ▸ hy.1, (Facade.length_enter _ call).symm ▸ hy.2⟩

end AntsPool.MultiPool
