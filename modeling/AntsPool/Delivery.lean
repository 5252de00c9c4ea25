import AntsPool.MultiPoolSteps

/-!
# Dispatch over pools of any kind

`MultiPoolCore<P>` sees its pools only through the trait: it reads how many workers
run and it delivers, and both answers are the pool's. Here the answers come from
outside, dispatches interleave at every access, and the other calls on the multi-pool
close it, reopen it and set the cursor back. A dispatch carries the payload it holds.
-/
namespace AntsPool.Delivery
open Interleaving
open MultiPool (MultiPoolCore LoadBalancingStrategy roundRobin leastTasks ticket)

/-- The result of `deliver`; a refusal hands an argument back. -/
inductive Answer (P : Type)
  | ok
  | err (e : Error) (argument : P)
deriving DecidableEq

/-- `try_submit` and `try_invoke`, from what `is_closed` and `retrieve_worker` return. -/
def tryDeliver {P : Type} (isClosed : Bool) (retrieveWorker : Except Error ℕ) (argument : P) :
    Answer P :=
  if isClosed then .err .poolClosed argument
  else
    match retrieveWorker with
    | .ok _worker => .ok
    | .error e => .err e argument

/-- A payload that pool `pool` took from dispatch number `dispatch`. -/
structure Taken (P : Type) where
  pool : ℕ
  dispatch : ℕ
  payload : P
deriving DecidableEq

/-- The fields of the multi-pool with the number of its pools. No step reads what the
pools have taken or the pools that tickets have selected, the latest last. -/
structure Pools (P : Type) where
  head : MultiPoolCore
  size : ℕ
  taken : List (Taken P) := []
  rotation : List ℕ := []
deriving DecidableEq

inductive Pc
  | checkClosed
  | ticket
  | scan (candidate : ℕ) (least : Option ℤ) (index : ℕ)
  | deliver (k : ℕ)
  | returned (result : Option Error)
  | panicked
deriving DecidableEq

/-- A delivery that was answered. -/
structure Attempt (P : Type) where
  pool : ℕ
  offered : P
  answer : Answer P
deriving DecidableEq

/-- A call of `dispatch` with `payload`, which now holds `argument`. `fallback` tells the
second attempt from the first; the attempts are history. -/
structure Dispatch (P : Type) where
  payload : P
  argument : P
  fallback : Bool := false
  attempts : List (Attempt P) := []
  pc : Pc := .checkClosed
deriving DecidableEq

inductive Party (P : Type)
  | others
  | dispatch (t : Dispatch P)
deriving DecidableEq

/-- What the pools answer, and the accesses of the other calls: the exchanges of
`release_context` and `reboot`, and the store of the cursor. -/
inductive Env
  | ok
  | running (r : ℤ)
  | deliver (isClosed : Bool) (retrieveWorker : Except Error ℕ)
  | close
  | reopen
  | rewind

/-- `next`, where it starts. -/
def select (lbs : LoadBalancingStrategy) : Pc :=
  if lbs = roundRobin then .ticket
  else if lbs = leastTasks then .scan 0 none 0
  else .panicked

variable {P : Type}

/-- One access of dispatch number `i`. -/
def Dispatch.next (s : Pools P) (i : ℕ) (t : Dispatch P) : Env → Option (Pools P × Dispatch P)
  | .ok =>
      match t.pc with
      | .checkClosed =>
          some (s, { t with
            pc := if s.head.isClosed then .returned (some .poolClosed) else select s.head.lbs })
      | .ticket =>
          let k := ticket s.head % s.size
          some ({ s with head := { s.head with index := ticket s.head },
                         rotation := s.rotation ++ [k] }, { t with pc := .deliver k })
      | .scan candidate _ index =>
          if s.size ≤ candidate then some (s, { t with pc := .deliver index }) else none
      -- an index out of bounds
      | .deliver k => if k < s.size then none else some (s, { t with pc := .panicked })
      | _ => none
  | .running r =>
      match t.pc with
      | .scan candidate least index =>
          if s.size ≤ candidate then none
          else if ∀ m ∈ least, r < m then
            some (s, { t with pc := .scan (candidate + 1) (some r) candidate })
          else some (s, { t with pc := .scan (candidate + 1) least index })
      | _ => none
  | .deliver isClosed retrieveWorker =>
      match t.pc with
      | .deliver k =>
          if s.size ≤ k then none
          else
            let answer := tryDeliver isClosed retrieveWorker t.argument
            let attempts := t.attempts ++ [⟨k, t.argument, answer⟩]
            match answer with
            | .ok =>
                some ({ s with taken := s.taken ++ [⟨k, i, t.argument⟩] },
                  { t with attempts := attempts, pc := .returned none })
            | .err e argument =>
                if t.fallback = true ∨ e ≠ .poolOverload ∨ s.head.lbs ≠ roundRobin then
                  some (s, { t with argument := argument, attempts := attempts,
                                    pc := .returned (some e) })
                else
                  some (s, { t with argument := argument, fallback := true, attempts := attempts,
                                    pc := select leastTasks })
      | _ => none
  | _ => none

/-- One access of another call. -/
def othersNext (s : Pools P) : Env → Option (Pools P)
  | .close => some { s with head := { s.head with state := .closed } }
  | .reopen => some { s with head := { s.head with state := .opened } }
  | .rewind => some { s with head := { s.head with index := 0 } }
  | _ => none

/-- A call is a dispatch with its payload or, as `none`, another one. -/
def program (P : Type) : Program (Pools P) (Party P) (Option P) Env where
  start
    | _, some payload => .dispatch { payload := payload, argument := payload }
    | _, none => .others
  next s i t a :=
    match t with
    | .others => (othersNext s a).map fun s' => (s', .others, [])
    | .dispatch t => (t.next s i a).map fun r => (r.1, .dispatch r.2, [])

abbrev State (P : Type) := Interleaving.Config (Pools P) (Party P)

/-- `MultiPoolCore::new`, once its pools have been made. -/
def new (P : Type) (size : ℤ) (lbs : LoadBalancingStrategy) : Except Error (State P) :=
  if size ≤ 0 then .error .invalidMultiPoolSize
  else if lbs ≠ roundRobin ∧ lbs ≠ leastTasks then .error .invalidLoadBalancingStrategy
  else .ok ⟨{ head := ⟨2 ^ 32 - 1, .opened, lbs⟩, size := size.toNat }, [.others]⟩

def Starts (x : State P) : Prop := ∃ size lbs, new P size lbs = .ok x

/-- The runs in which every pool answers as it likes and all accesses interleave. -/
abbrev Run (x : State P) : Prop := (program P).Reach Starts (fun _ _ => True) x

/-! ## What a step can do -/

inductive Dispatch.Step (s : Pools P) (i : ℕ) : Dispatch P → Pools P → Dispatch P → Prop
  | closed {p q f l} (h : s.head.state = .closed) :
      Step s i ⟨p, q, f, l, .checkClosed⟩ s ⟨p, q, f, l, .returned (some .poolClosed)⟩
  | opened {p q f l} (h : s.head.state = .opened) :
      Step s i ⟨p, q, f, l, .checkClosed⟩ s ⟨p, q, f, l, select s.head.lbs⟩
  | ticket {p q f l} :
      Step s i ⟨p, q, f, l, .ticket⟩
        { s with head := { s.head with index := ticket s.head },
                 rotation := s.rotation ++ [ticket s.head % s.size] }
        ⟨p, q, f, l, .deliver (ticket s.head % s.size)⟩
  | scanned {p q f l c least index} (hc : s.size ≤ c) :
      Step s i ⟨p, q, f, l, .scan c least index⟩ s ⟨p, q, f, l, .deliver index⟩
  | scanLess {p q f l c least index} (r : ℤ) (hc : c < s.size) (hr : ∀ m ∈ least, r < m) :
      Step s i ⟨p, q, f, l, .scan c least index⟩ s ⟨p, q, f, l, .scan (c + 1) (some r) c⟩
  | scanNext {p q f l c least index} (r : ℤ) (hc : c < s.size) (hr : ∃ m ∈ least, m ≤ r) :
      Step s i ⟨p, q, f, l, .scan c least index⟩ s ⟨p, q, f, l, .scan (c + 1) least index⟩
  | outOfBounds {p q f l k} (hk : s.size ≤ k) :
      Step s i ⟨p, q, f, l, .deliver k⟩ s ⟨p, q, f, l, .panicked⟩
  | accepted {p q f l k} (hk : k < s.size) :
      Step s i ⟨p, q, f, l, .deliver k⟩ { s with taken := s.taken ++ [⟨k, i, q⟩] }
        ⟨p, q, f, l ++ [⟨k, q, .ok⟩], .returned none⟩
  | refused {p q f l k} (e : Error) (hk : k < s.size)
      (h : f = true ∨ e ≠ .poolOverload ∨ s.head.lbs ≠ roundRobin) :
      Step s i ⟨p, q, f, l, .deliver k⟩ s
        ⟨p, q, f, l ++ [⟨k, q, .err e q⟩], .returned (some e)⟩
  | fallback {p q l k} (hk : k < s.size) (h : s.head.lbs = roundRobin) :
      Step s i ⟨p, q, false, l, .deliver k⟩ s
        ⟨p, q, true, l ++ [⟨k, q, .err .poolOverload q⟩], .scan 0 none 0⟩

/-- `deliver` accepts, or it hands the argument back that it was given. -/
theorem tryDeliver_cases (isClosed : Bool) (retrieveWorker : Except Error ℕ) (argument : P) :
    tryDeliver isClosed retrieveWorker argument = .ok ∨
      ∃ e, tryDeliver isClosed retrieveWorker argument = .err e argument := by
  cases isClosed with
  | true => exact .inr ⟨.poolClosed, rfl⟩
  | false =>
      cases retrieveWorker with
      | ok worker => exact .inl rfl
      | error e => exact .inr ⟨e, rfl⟩

theorem Dispatch.next_step {s : Pools P} {i : ℕ} {t : Dispatch P} {a : Env}
    {r : Pools P × Dispatch P} (h : t.next s i a = some r) : Dispatch.Step s i t r.1 r.2 := by
  obtain ⟨p, q, f, l, pc⟩ := t
  cases a with
  | ok =>
      cases pc with
      | checkClosed =>
          simp only [next] at h
          split at h
          · rename_i hc
            cases h
            exact .closed (s.head.isClosed_iff.mp hc)
          · rename_i hc
            cases h
            exact .opened (MultiPool.MultiPoolCore.opened_of_not_isClosed hc)
      | ticket =>
          cases h
          exact .ticket
      | scan c least index =>
          simp only [next] at h
          split at h
          · rename_i hc
            cases h
            exact .scanned hc
          · cases h
      | deliver k =>
          simp only [next] at h
          split at h
          · cases h
          · rename_i hk
            cases h
            exact .outOfBounds (not_lt.mp hk)
      | returned r => cases h
      | panicked => cases h
  | running r =>
      cases pc with
      | scan c least index =>
          simp only [next] at h
          split at h
          · cases h
          · rename_i hc
            split at h
            · rename_i hr
              cases h
              exact .scanLess r (not_le.mp hc) hr
            · rename_i hr
              cases h
              push Not at hr
              exact .scanNext r (not_le.mp hc) hr
      | _ => cases h
  | deliver isClosed retrieveWorker =>
      cases pc with
      | deliver k =>
          simp only [next] at h
          split at h
          · cases h
          · rename_i hk
            rcases tryDeliver_cases isClosed retrieveWorker q with hanswer | ⟨e, hanswer⟩
            · rw [hanswer] at h
              cases h
              exact .accepted (not_le.mp hk)
            · rw [hanswer] at h
              simp only at h
              split at h
              · rename_i hret
                cases h
                exact .refused e (not_le.mp hk) hret
              · rename_i hret
                push Not at hret
                obtain ⟨hf, rfl, hl⟩ := hret
                cases f with
                | true => exact (hf rfl).elim
                | false =>
                    cases h
                    exact .fallback (not_le.mp hk) hl
      | _ => cases h
  | close => cases h
  | reopen => cases h
  | rewind => cases h

/-- Some answer of the pools makes any of the steps happen. -/
theorem Dispatch.exists_next {s s' : Pools P} {i : ℕ} {t t' : Dispatch P}
    (h : Dispatch.Step s i t s' t') : ∃ a, t.next s i a = some (s', t') := by
  cases h with
  | closed hs => exact ⟨.ok, by simp [next, s.head.isClosed_iff.mpr hs]⟩
  | opened hs => exact ⟨.ok, by simp [next, MultiPoolCore.isClosed, hs]⟩
  | ticket => exact ⟨.ok, rfl⟩
  | scanned hc => exact ⟨.ok, by simp [next, hc]⟩
  | scanLess r hc hr =>
      exact ⟨.running r, by simp only [next, if_neg (not_le.mpr hc), if_pos hr]⟩
  | scanNext r hc hr =>
      obtain ⟨m, hm, hle⟩ := hr
      exact ⟨.running r, by simp [next, not_le.mpr hc, Option.mem_def.mp hm, not_lt.mpr hle]⟩
  | outOfBounds hk => exact ⟨.ok, by simp [next, not_lt.mpr hk]⟩
  | accepted hk => exact ⟨.deliver false (.ok 0), by simp [next, not_le.mpr hk, tryDeliver]⟩
  | refused e hk h =>
      exact ⟨.deliver false (.error e), by simp [next, not_le.mpr hk, tryDeliver, h]⟩
  | fallback hk h =>
      exact ⟨.deliver false (.error .poolOverload),
        by simp [next, not_le.mpr hk, tryDeliver, h, select, leastTasks, roundRobin]⟩

/-- What every step leaves as it was. -/
theorem Dispatch.Step.frame {s s' : Pools P} {i : ℕ} {t t' : Dispatch P}
    (h : Dispatch.Step s i t s' t') : s'.head.lbs = s.head.lbs ∧ s'.size = s.size := by
  cases h <;> exact ⟨rfl, rfl⟩

theorem othersNext_frame {s s' : Pools P} {a : Env} (h : othersNext s a = some s') :
    s'.head.lbs = s.head.lbs ∧ s'.size = s.size ∧ s'.taken = s.taken ∧
      s'.rotation = s.rotation := by
  cases a with
  | close | reopen | rewind =>
      cases h
      exact ⟨rfl, rfl, rfl, rfl⟩
  | ok | running r | deliver c w => cases h

/-- What the pools took from dispatch number `i`. -/
def Pools.takenFrom (s : Pools P) (i : ℕ) : List (Taken P) := s.taken.filter (·.dispatch = i)

theorem takenFrom_append_self {s : Pools P} {i : ℕ} (h : s.takenFrom i = []) (k : ℕ) (p : P) :
    ({ s with taken := s.taken ++ [⟨k, i, p⟩] } : Pools P).takenFrom i = [⟨k, i, p⟩] := by
  rw [Pools.takenFrom] at h ⊢
  simp [h]

theorem takenFrom_append_ne {s : Pools P} {i j : ℕ} (h : j ≠ i) (k : ℕ) (p : P) :
    ({ s with taken := s.taken ++ [⟨k, i, p⟩] } : Pools P).takenFrom j = s.takenFrom j := by
  simp [Pools.takenFrom, Ne.symm h]

theorem Dispatch.Step.takenFrom_ne {s s' : Pools P} {i j : ℕ} {t t' : Dispatch P}
    (h : Dispatch.Step s i t s' t') (hj : j ≠ i) : s'.takenFrom j = s.takenFrom j := by
  cases h with
  | accepted => exact takenFrom_append_ne hj _ _
  | _ => rfl

/-! ## Where a dispatch stands -/

/-- Choosing a pool out of `n`; a chosen one exists. -/
inductive Selecting (n : ℕ) : Bool → Pc → Prop
  | checkClosed : Selecting n false .checkClosed
  | ticket : Selecting n false .ticket
  | scan {f c least index} (h : index < n) : Selecting n f (.scan c least index)
  | deliver {f k} (h : k < n) : Selecting n f (.deliver k)

/-- The attempts before the one that is being made: none, or one in rotation that an
overloaded pool refused. -/
inductive Retried (s : Pools P) (p : P) : Bool → List (Attempt P) → Prop
  | no : Retried s p false []
  | yes {k : ℕ} (hk : k < s.size) (h : s.head.lbs = roundRobin) :
      Retried s p true [⟨k, p, .err .poolOverload p⟩]

/-- A dispatch holds its payload until a pool takes it, and then no other has it. -/
inductive Carries (s : Pools P) (i : ℕ) : Dispatch P → Prop
  | trying {p f l pc} (hl : Retried s p f l) (hpc : Selecting s.size f pc)
      (h : s.takenFrom i = []) : Carries s i ⟨p, p, f, l, pc⟩
  | closed {p} (h : s.takenFrom i = []) :
      Carries s i ⟨p, p, false, [], .returned (some .poolClosed)⟩
  | taken {p f l k} (hl : Retried s p f l) (hk : k < s.size) (h : s.takenFrom i = [⟨k, i, p⟩]) :
      Carries s i ⟨p, p, f, l ++ [⟨k, p, .ok⟩], .returned none⟩
  | refused {p f l k} (e : Error) (hl : Retried s p f l) (hk : k < s.size)
      (h : s.takenFrom i = []) :
      Carries s i ⟨p, p, f, l ++ [⟨k, p, .err e p⟩], .returned (some e)⟩

/-- What holds of the shared fields in every run. -/
structure Pools.Valid (s : Pools P) : Prop where
  size_pos : 0 < s.size
  lbs : s.head.lbs = roundRobin ∨ s.head.lbs = leastTasks

theorem Retried.congr {s s' : Pools P} {p : P} {f : Bool} {l : List (Attempt P)}
    (h : Retried s p f l) (hlbs : s'.head.lbs = s.head.lbs) (hsize : s'.size = s.size) :
    Retried s' p f l := by
  cases h with
  | no => exact .no
  | yes hk hl => exact .yes (hsize ▸ hk) (hlbs.trans hl)

theorem Retried.offered {s : Pools P} {p : P} {f : Bool} {l : List (Attempt P)}
    (h : Retried s p f l) : ∀ a ∈ l, a.offered = p ∧ a.pool < s.size := by
  cases h with
  | no => simp
  | yes hk _ => simpa using hk

/-- A step that takes nothing from a dispatch leaves it where it stands. -/
theorem Carries.congr {s s' : Pools P} {i : ℕ} {t : Dispatch P} (h : Carries s i t)
    (hlbs : s'.head.lbs = s.head.lbs) (hsize : s'.size = s.size)
    (htaken : s'.takenFrom i = s.takenFrom i) : Carries s' i t := by
  cases h with
  | trying hl hpc h => exact .trying (hl.congr hlbs hsize) (hsize ▸ hpc) (htaken.trans h)
  | closed h => exact .closed (htaken.trans h)
  | taken hl hk h => exact .taken (hl.congr hlbs hsize) (hsize ▸ hk) (htaken.trans h)
  | refused e hl hk h => exact .refused e (hl.congr hlbs hsize) (hsize ▸ hk) (htaken.trans h)

theorem selecting_select {s : Pools P} (h : s.Valid) :
    Selecting s.size false (select s.head.lbs) := by
  rcases h.lbs with hl | hl
  · rw [hl]
    exact .ticket
  · rw [hl]
    exact .scan h.size_pos

/-- Only the delivery that a pool accepts takes the payload. -/
theorem Carries.step {s s' : Pools P} {i : ℕ} {t t' : Dispatch P} (hs : s.Valid)
    (h : Carries s i t) (hstep : Dispatch.Step s i t s' t') : Carries s' i t' := by
  cases h with
  | trying hl hpc h =>
      cases hstep with
      | closed =>
          cases hpc
          cases hl
          exact .closed h
      | opened =>
          cases hpc
          exact .trying hl (selecting_select hs) h
      | ticket =>
          cases hpc
          exact .trying (hl.congr rfl rfl) (.deliver (Nat.mod_lt _ hs.size_pos)) h
      | scanned =>
          cases hpc with
          | scan hindex => exact .trying hl (.deliver hindex) h
      | scanLess r hc hr => exact .trying hl (.scan hc) h
      | scanNext r hc hr =>
          cases hpc with
          | scan hindex => exact .trying hl (.scan hindex) h
      | outOfBounds hk =>
          cases hpc with
          | deliver hlt => exact (not_le.mpr hlt hk).elim
      | accepted hk => exact .taken (hl.congr rfl rfl) hk (takenFrom_append_self h _ _)
      | refused e hk => exact .refused e hl hk h
      | fallback hk hlbs =>
          cases hl
          exact .trying (.yes hk hlbs) (.scan hs.size_pos) h
  | closed => cases hstep
  | taken => cases hstep
  | refused => cases hstep

/-! ## Every run -/

theorem Starts.valid {x : State P} (h : Starts x) :
    x.shared.Valid ∧ x.shared.taken = [] ∧ x.threads = [.others] := by
  obtain ⟨size, lbs, h⟩ := h
  simp only [new] at h
  split_ifs at h with hsize hlbs
  · cases h
    refine ⟨⟨?_, ?_⟩, rfl, rfl⟩
    · change 0 < size.toNat
      omega
    · change lbs = roundRobin ∨ lbs = leastTasks
      tauto

theorem Run.valid {x : State P} (h : Run x) : x.shared.Valid := by
  refine Program.Reach.invariant (J := fun x => x.shared.Valid) ?_ ?_ ?_ h
  · exact fun y hy => hy.valid.1
  · exact fun _ _ _ hy _ => hy
  · intro y i a t r _ hy _ _ hr
    cases t with
    | others =>
        obtain ⟨s', hs, rfl⟩ := Option.map_eq_some_iff.mp hr
        obtain ⟨hlbs, hsize, _⟩ := othersNext_frame hs
        exact ⟨hsize.symm ▸ hy.size_pos, hlbs.symm ▸ hy.lbs⟩
    | dispatch t =>
        obtain ⟨q, hq, rfl⟩ := Option.map_eq_some_iff.mp hr
        obtain ⟨hlbs, hsize⟩ := (Dispatch.next_step hq).frame
        exact ⟨hsize.symm ▸ hy.size_pos, hlbs.symm ▸ hy.lbs⟩

/-- Nothing has been taken from a dispatch that is yet to come. -/
theorem Run.takenFrom_new {x : State P} (h : Run x) {i : ℕ} (hi : x.threads.length ≤ i) :
    x.shared.takenFrom i = [] := by
  refine Program.Reach.invariant
    (J := fun x => ∀ i, x.threads.length ≤ i → x.shared.takenFrom i = []) ?_ ?_ ?_ h i hi
  · intro y hy j _
    rw [Pools.takenFrom, hy.valid.2.1]
    rfl
  · intro y c _ hy _ j hj
    refine hy j ?_
    simp only [Program.entered, List.length_append] at hj
    omega
  · intro y i a t r _ hy _ ht hr j hj
    have hle := hj.trans' (Config.length_le_after y i r)
    have hlen := (List.getElem?_eq_some_iff.mp ht).1
    cases t with
    | others =>
        obtain ⟨s', hs, rfl⟩ := Option.map_eq_some_iff.mp hr
        obtain ⟨_, _, htaken, _⟩ := othersNext_frame hs
        change s'.takenFrom j = []
        rw [Pools.takenFrom, htaken]
        exact hy j hle
    | dispatch t =>
        obtain ⟨q, hq, rfl⟩ := Option.map_eq_some_iff.mp hr
        exact ((Dispatch.next_step hq).takenFrom_ne (by omega)).trans (hy j hle)

theorem Run.carries {x : State P} (h : Run x) {i : ℕ} {t : Dispatch P}
    (ht : x.threads[i]? = some (.dispatch t)) : Carries x.shared i t := by
  refine (Program.Reach.invariant_threads (J := fun _ => True)
    (φ := fun s i u => ∀ t, u = .dispatch t → Carries s i t) ?_ ?_ ?_ h).2 i _ ht t rfl
  · intro y hy
    refine ⟨trivial, fun j u hu t htu => ?_⟩
    have hmem := List.mem_of_getElem? hu
    rw [hy.valid.2.2, List.mem_singleton, htu] at hmem
    cases hmem
  · intro y p hy _ _ t htp
    cases p with
    | none => cases htp
    | some p =>
        cases htp
        exact .trying .no .checkClosed (Run.takenFrom_new hy le_rfl)
  · intro y j a u r hr _ hall _ hu hn
    have hvalid := Run.valid hr
    cases u with
    | others =>
        obtain ⟨s', hs, rfl⟩ := Option.map_eq_some_iff.mp hn
        obtain ⟨hlbs, hsize, htaken, _⟩ := othersNext_frame hs
        refine ⟨trivial, nofun, by simp, fun k v _ hv t hvt => ?_⟩
        exact (hall k v hv t hvt).congr hlbs hsize (by rw [Pools.takenFrom, htaken]; rfl)
    | dispatch u =>
        obtain ⟨q, hq, rfl⟩ := Option.map_eq_some_iff.mp hn
        have hstep := Dispatch.next_step hq
        obtain ⟨hlbs, hsize⟩ := hstep.frame
        refine ⟨trivial, fun t htq => ?_, by simp, fun k v hk hv t hvt => ?_⟩
        · cases htq
          exact (hall j _ hu u rfl).step hvalid hstep
        · exact (hall k v hv t hvt).congr hlbs hsize (hstep.takenFrom_ne hk)

namespace Carries
variable {s : Pools P} {i : ℕ} {t : Dispatch P}

theorem taken_of_ok (h : Carries s i t) (hpc : t.pc = .returned none) :
    ∃ k < s.size, s.takenFrom i = [⟨k, i, t.payload⟩] ∧
      t.attempts.getLast? = some ⟨k, t.payload, .ok⟩ := by
  cases h with
  | trying _ hsel _ =>
      cases hpc
      cases hsel
  | closed => cases hpc
  | taken _ hk h => exact ⟨_, hk, h, List.getLast?_concat⟩
  | refused => cases hpc

theorem takenFrom_of_not_ok (h : Carries s i t) (hpc : t.pc ≠ .returned none) :
    s.takenFrom i = [] := by
  cases h with
  | trying _ _ h => exact h
  | closed h => exact h
  | taken => exact (hpc rfl).elim
  | refused _ _ _ h => exact h

theorem error_of_last (h : Carries s i t) {e : Error} (hpc : t.pc = .returned (some e)) :
    (t.attempts = [] ∧ e = .poolClosed) ∨
      ∃ k argument, t.attempts.getLast? = some ⟨k, argument, .err e argument⟩ := by
  cases h with
  | trying _ hsel _ =>
      cases hpc
      cases hsel
  | closed =>
      cases hpc
      exact .inl ⟨rfl, rfl⟩
  | taken => cases hpc
  | refused =>
      cases hpc
      exact .inr ⟨_, _, List.getLast?_concat⟩

theorem offered (h : Carries s i t) :
    ∀ a ∈ t.attempts, a.offered = t.payload ∧ a.pool < s.size := by
  cases h with
  | trying hl _ _ => exact hl.offered
  | closed => simp
  | taken hl hk _ | refused _ hl hk _ =>
      intro a ha
      rcases List.mem_append.mp ha with ha | ha
      · exact hl.offered a ha
      · obtain rfl := List.mem_singleton.mp ha
        exact ⟨rfl, hk⟩

theorem fallback (h : Carries s i t) {a b : Attempt P} {l : List (Attempt P)}
    (hl : t.attempts = a :: b :: l) :
    l = [] ∧ s.head.lbs = roundRobin ∧ a.answer = .err .poolOverload b.offered := by
  cases h with
  | trying hr _ _ => cases hr <;> cases hl
  | closed => cases hl
  | taken hr _ _ | refused _ hr _ _ =>
      cases hr with
      | no => cases hl
      | yes _ hlbs =>
          cases hl
          exact ⟨rfl, hlbs, rfl⟩

theorem selected (h : Carries s i t) {k : ℕ} (hpc : t.pc = .deliver k) : k < s.size := by
  cases h with
  | trying _ hsel _ =>
      cases hpc
      cases hsel with
      | deliver hk => exact hk
  | closed | taken | refused => cases hpc

theorem not_panicked (h : Carries s i t) : t.pc ≠ .panicked := by
  intro hpc
  cases h with
  | trying _ hsel _ =>
      cases hpc
      cases hsel
  | closed | taken | refused => cases hpc

end Carries

/-- In every interleaving, a dispatch that returned `Ok` has had its payload taken by
exactly one pool, and any other by none. A fallback follows an overload in rotation and
is offered what the first pool handed back; the error is that of the last attempt. Every
selected pool exists. -/
theorem delivers_to_one_or_none {x : State P} (h : Run x) {i : ℕ} {t : Dispatch P}
    (ht : x.threads[i]? = some (.dispatch t)) :
    (t.pc = .returned none →
      ∃ k < x.shared.size, x.shared.takenFrom i = [⟨k, i, t.payload⟩] ∧
        t.attempts.getLast? = some ⟨k, t.payload, .ok⟩) ∧
    (t.pc ≠ .returned none → x.shared.takenFrom i = []) ∧
    (∀ e, t.pc = .returned (some e) →
      (t.attempts = [] ∧ e = .poolClosed) ∨
        ∃ k argument, t.attempts.getLast? = some ⟨k, argument, .err e argument⟩) ∧
    (∀ a ∈ t.attempts, a.offered = t.payload ∧ a.pool < x.shared.size) ∧
    (∀ a b l, t.attempts = a :: b :: l → l = [] ∧ x.shared.head.lbs = roundRobin ∧
      a.answer = .err .poolOverload b.offered) ∧
    (∀ k, t.pc = .deliver k → k < x.shared.size) ∧ t.pc ≠ .panicked := by
  have hc := h.carries ht
  exact ⟨hc.taken_of_ok, hc.takenFrom_of_not_ok, fun e => hc.error_of_last, hc.offered,
    fun a b l => hc.fallback, fun k => hc.selected, hc.not_panicked⟩

/-- Two pools. The first is overloaded and the payload goes to the second. -/
theorem delivers_to_one_or_none_fallback :
    ∃ (x : State ℕ) (t : Dispatch ℕ), Run x ∧ x.threads[1]? = some (.dispatch t) ∧
      t.pc = .returned none ∧ t.attempts.length = 2 ∧
      (∃ k < x.shared.size, x.shared.takenFrom 1 = [⟨k, 1, t.payload⟩] ∧
        t.attempts.getLast? = some ⟨k, t.payload, .ok⟩) := by
  obtain ⟨x, hx, hφ⟩ := Program.Reach.exists_of_run
    (P := program ℕ) (I := Starts) (G := fun _ _ => True)
    (x := ((new ℕ 2 roundRobin).toOption.get rfl))
    (m := [.call (some 7), .step 1 .ok, .step 1 .ok,
      .step 1 (.deliver false (.error .poolOverload)), .step 1 (.running 1),
      .step 1 (.running 0), .step 1 .ok, .step 1 (.deliver false (.ok 0))])
    (φ := fun x => x.threads[1]? = some (.dispatch ⟨7, 7, true,
      [⟨0, 7, .err .poolOverload 7⟩, ⟨1, 7, .ok⟩], .returned none⟩))
    ⟨2, roundRobin, rfl⟩ (by decide)
  have ht := of_decide_eq_true hφ
  exact ⟨x, _, hx, ht, rfl, rfl, (delivers_to_one_or_none hx ht).1 rfl⟩

end AntsPool.Delivery
