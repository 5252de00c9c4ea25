import AntsPool.Delivery

/-!
# A multi-pool over pools is one over pools of any kind

Every run of the multi-pool over pools is matched by a run in which the pools only
answer: the threads inside the pools take no step there, a delivery that waits for its
pool has not been answered yet, and the calls that are no dispatches keep nothing but
their accesses to the fields of the multi-pool.
-/
namespace AntsPool.Delivery
open Interleaving

inductive SamePc : MultiPool.DispatchPc → Pc → Prop
  | checkClosed : SamePc .checkClosed .checkClosed
  | ticket : SamePc .ticket .ticket
  | scan {candidate least index} :
      SamePc (.scan candidate least index) (.scan candidate least index)
  | deliver {k} : SamePc (.deliver k) (.deliver k)
  | await {k i} : SamePc (.await k i) (.deliver k)
  | returned {r} : SamePc (.returned r) (.returned r)
  | panicked : SamePc .panicked .panicked

/-- The thread at position `i` of either program. Dispatch number `i` carries `i`. -/
inductive Mirrors (i : ℕ) : Role MultiPool.Client → Party ℕ → Prop
  | members : Mirrors i .members .others
  | dispatch {n f l l' pc pc'} (hpc : SamePc pc pc') :
      Mirrors i (.client (.dispatch ⟨n, f, l, pc⟩)) (.dispatch ⟨i, i, f, l', pc'⟩)
  | releaseContext {b pc} : Mirrors i (.client (.releaseContext b pc)) .others
  | reboot {pc} : Mirrors i (.client (.reboot pc)) .others
  | tune {size pc} : Mirrors i (.client (.tune size pc)) .others

structure Refines (x : MultiPool.State) (y : State ℕ) : Prop where
  head : y.shared.head = x.shared.head
  size : y.shared.size = x.shared.members.length
  length : y.threads.length = x.threads.length
  threads : ∀ i r, x.threads[i]? = some r → ∃ p, y.threads[i]? = some p ∧ Mirrors i r p

theorem samePc_select (lbs : MultiPool.LoadBalancingStrategy) :
    SamePc (MultiPool.select lbs) (select lbs) := by
  unfold MultiPool.select select
  split_ifs
  · exact .ticket
  · exact .scan
  · exact .panicked

theorem Mirrors.start (i : ℕ) (q : MultiPool.Request) :
    ∃ c : Option ℕ, Mirrors i (.client q.start) ((program ℕ).start i c) := by
  cases q with
  | submit stop => exact ⟨some i, .dispatch .checkClosed⟩
  | releaseContext b => exact ⟨none, .releaseContext⟩
  | reboot => exact ⟨none, .reboot⟩
  | tune size => exact ⟨none, .tune⟩

theorem Refines.entered {x : MultiPool.State} {y : State ℕ} (h : Refines x y)
    {r : Role MultiPool.Client} {c : Option ℕ}
    (hm : Mirrors x.threads.length r ((program ℕ).start x.threads.length c)) :
    Refines ⟨x.shared, x.threads ++ [r]⟩ ((program ℕ).entered y c) where
  head := h.head
  size := h.size
  length := by simp only [Program.entered, List.length_append, List.length_singleton, h.length]
  threads j u hu := by
    simp only [Program.entered, h.length]
    rcases getElem?_concat_cases hu with hu | ⟨rfl, rfl⟩
    · obtain ⟨p, hp, hpm⟩ := h.threads j u hu
      have hlt := (List.getElem?_eq_some_iff.mp hp).1
      exact ⟨p, by rw [List.getElem?_append_left hlt, hp], hpm⟩
    · exact ⟨_, by rw [← h.length, List.getElem?_concat_length, h.length], hm⟩

/-- One thread moves on either side, or on the left alone. -/
theorem Refines.after {x : MultiPool.State} {y y' : State ℕ} (h : Refines x y) {i : ℕ}
    {r r' : Role MultiPool.Client} {g' : Group MultiPool.MultiPoolCore PoolCore Thread}
    {p' : Party ℕ} (hi : x.threads[i]? = some r) (hhead : y'.shared.head = g'.head)
    (hsize : y'.shared.size = g'.members.length) (hthreads : y'.threads = y.threads.set i p')
    (hm : Mirrors i r' p') : Refines (x.after i (g', r', [])) y' where
  head := hhead
  size := hsize
  length := by simp only [hthreads, List.length_set, h.length, Config.after, List.append_nil]
  threads j u hu := by
    rcases Config.getElem?_after hi hu with ⟨rfl, rfl⟩ | ⟨hj, hu⟩ | ⟨_, hu⟩
    · obtain ⟨p, hp, _⟩ := h.threads j r hi
      have hlt := (List.getElem?_eq_some_iff.mp hp).1
      exact ⟨p', by rw [hthreads, List.getElem?_set_self hlt], hm⟩
    · obtain ⟨p, hp, hpm⟩ := h.threads j u hu
      exact ⟨p, by rw [hthreads, List.getElem?_set_ne (Ne.symm hj), hp], hpm⟩
    · cases hu

/-- A step on the left that leaves the fields of the multi-pool alone. -/
theorem Refines.stutter {x : MultiPool.State} {y : State ℕ} (h : Refines x y) {i : ℕ}
    {r r' : Role MultiPool.Client} {g' : Group MultiPool.MultiPoolCore PoolCore Thread}
    {p : Party ℕ} (hi : x.threads[i]? = some r) (hp : y.threads[i]? = some p)
    (hhead : g'.head = x.shared.head) (hsize : g'.members.length = x.shared.members.length)
    (hm : Mirrors i r' p) : Refines (x.after i (g', r', [])) y := by
  have hset : y.threads.set i p = y.threads := by
    obtain ⟨hlt, heq⟩ := List.getElem?_eq_some_iff.mp hp
    rw [← heq, List.set_getElem_self]
  exact h.after hi (h.head.trans hhead.symm) (h.size.trans hsize.symm) hset.symm hm

/-- A step of a dispatch is matched by one step or, where it only calls its pool, by none. -/
theorem dispatch_mirrored {s s' : MultiPool.MultiPoolCore} {pools : List Config}
    {t t' : MultiPool.Dispatch} {call : Option (ℕ × Call)}
    (h : MultiPool.Dispatch.Step s pools t s' t' call) {a : Pools ℕ} (hhead : a.head = s)
    (hsize : a.size = pools.length) {i : ℕ} {d : Dispatch ℕ}
    (hd : Mirrors i (.client (.dispatch t)) (.dispatch d)) :
    (s' = s ∧ Mirrors i (.client (.dispatch t')) (.dispatch d)) ∨
      ∃ a' d', Dispatch.Step a i d a' d' ∧ a'.head = s' ∧
        Mirrors i (.client (.dispatch t')) (.dispatch d') := by
  subst hhead
  cases hd with
  | dispatch hpc =>
      cases h with
      | closed hs =>
          cases hpc
          exact .inr ⟨_, _, .closed hs, rfl, .dispatch .returned⟩
      | opened hs =>
          cases hpc
          exact .inr ⟨_, _, .opened hs, rfl, .dispatch (samePc_select _)⟩
      | ticket =>
          cases hpc
          exact .inr ⟨_, _, .ticket, rfl, .dispatch (hsize ▸ .deliver)⟩
      | scanned hk =>
          cases hpc
          exact .inr ⟨_, _, .scanned (hsize.trans_le hk), rfl, .dispatch .deliver⟩
      | scanLess hk hr =>
          cases hpc
          have hlt := hsize.symm ▸ (List.getElem?_eq_some_iff.mp hk).1
          exact .inr ⟨_, _, .scanLess _ hlt hr, rfl, .dispatch .scan⟩
      | scanNext hk hr =>
          cases hpc
          have hlt := hsize.symm ▸ (List.getElem?_eq_some_iff.mp hk).1
          exact .inr ⟨_, _, .scanNext _ hlt hr, rfl, .dispatch .scan⟩
      | deliver =>
          cases hpc
          exact .inl ⟨rfl, .dispatch .await⟩
      | fallback hr hl =>
          cases hpc
          have hlt := hsize.symm ▸ MultiPool.lt_of_resultAt hr
          exact .inr ⟨_, _, .fallback hlt hl, rfl, .dispatch .scan⟩
      | @returned _ f _ _ _ r hr hn =>
          cases hpc
          have hlt := hsize.symm ▸ MultiPool.lt_of_resultAt hr
          cases r with
          | none => exact .inr ⟨_, _, .accepted hlt, rfl, .dispatch .returned⟩
          | some e =>
              refine .inr ⟨_, _, .refused e hlt ?_, rfl, .dispatch .returned⟩
              by_contra hne
              push Not at hne
              exact hne.1 (hn (congrArg some hne.2.1) hne.2.2)

/-- The accesses of the other calls. -/
theorem others_mirrored {s s' : MultiPool.MultiPoolCore} {pools : List Config}
    {t t' : MultiPool.Client} {call : Option (ℕ × Call)}
    (h : MultiPool.Client.Step s pools t s' t' call) {a : Pools ℕ} (hhead : a.head = s) {i : ℕ}
    (hd : Mirrors i (.client t) .others) :
    Mirrors i (.client t') .others ∧
      (s' = s ∨ ∃ e a', othersNext a e = some a' ∧ a'.head = s') := by
  subst hhead
  cases h with
  | dispatch h => cases hd
  | releaseContext h =>
      refine ⟨.releaseContext, ?_⟩
      cases h with
      | exchange => exact .inr ⟨.close, _, rfl, rfl⟩
      | _ => exact .inl rfl
  | reboot h =>
      refine ⟨.reboot, ?_⟩
      cases h with
      | exchange => exact .inr ⟨.reopen, _, rfl, rfl⟩
      | storeIndex => exact .inr ⟨.rewind, _, rfl, rfl⟩
      | _ => exact .inl rfl
  | tune h => exact ⟨.tune, .inl rfl⟩

/-- A new multi-pool, seen as one over pools of any kind. -/
theorem exists_start_refined {o : Options} {x : MultiPool.State} (h : MultiPool.Starts o x) :
    ∃ y : State ℕ, Starts y ∧ Refines x y := by
  obtain ⟨size, lbs, mk, _, h⟩ := h
  obtain ⟨hsize, hlbs, pools, hlen, _, rfl⟩ := MultiPool.new_ok h
  refine ⟨⟨{ head := ⟨2 ^ 32 - 1, .opened, lbs⟩, size := size.toNat }, [.others]⟩,
    ⟨size, lbs, ?_⟩, rfl, hlen.symm, rfl, ?_⟩
  · rw [new, if_neg (not_le.mpr hsize), if_neg (by tauto)]
  · intro i r hi
    cases i with
    | zero =>
        cases hi
        exact ⟨_, rfl, .members⟩
    | succ i => cases hi

/-- A step of a client, matched. -/
theorem Refines.client {x : MultiPool.State} {y : State ℕ} (hy : Run y) (h : Refines x y)
    {j : ℕ} {t t' : MultiPool.Client} {s' : MultiPool.MultiPoolCore} {call : Option (ℕ × Call)}
    {o : Options} (ht : x.threads[j]? = some (.client t))
    (hs : MultiPool.Client.Step x.shared.head x.shared.members t s' t' call) :
    ∃ y' : State ℕ, Run y' ∧ Refines (x.after j
      (⟨s', (AntsPool.program o).enter x.shared.members call⟩, .client t', [])) y' := by
  obtain ⟨p, hp, hm⟩ := h.threads j _ ht
  have hlen := Facade.length_enter (P := AntsPool.program o) x.shared.members call
  cases p with
  | others =>
      obtain ⟨hm', heq | ⟨e, a', he, hhead⟩⟩ := others_mirrored hs h.head hm
      · exact ⟨y, hy, h.stutter ht hp heq hlen hm'⟩
      · have hnext : (program ℕ).next y.shared j .others e = some (a', .others, []) := by
          simp only [program, he, Option.map_some]
        have hframe := (othersNext_frame he).2.1
        exact ⟨_, hy.step trivial hp hnext, h.after ht hhead (hframe.trans (h.size.trans hlen.symm))
          (List.append_nil _) hm'⟩
  | dispatch d =>
      cases hs with
      | dispatch hs =>
          rcases dispatch_mirrored hs h.head h.size hm with ⟨rfl, hm'⟩ | ⟨a', d', hd, hhead, hm'⟩
          · exact ⟨y, hy, h.stutter ht hp rfl hlen hm'⟩
          · obtain ⟨e, he⟩ := Dispatch.exists_next hd
            have hnext : (program ℕ).next y.shared j (.dispatch d) e =
                some (a', .dispatch d', []) := by
              simp only [program, he, Option.map_some]
            have hframe := hd.frame.2
            exact ⟨_, hy.step trivial hp hnext,
              h.after ht hhead (hframe.trans (h.size.trans hlen.symm)) (List.append_nil _) hm'⟩
      | releaseContext | reboot | tune => cases hm

/-- Every run of the multi-pool over pools is one over pools that answer alike. -/
theorem exists_run_refined {o : Options} {G : MultiPool.Guard} {x : MultiPool.State}
    (h : MultiPool.Run o G x) : ∃ y : State ℕ, Run y ∧ Refines x y := by
  refine Facade.invariant (J := fun x => ∃ y : State ℕ, Run y ∧ Refines x y) ?_ ?_ ?_ h
  · intro x hx
    obtain ⟨y, hy, href⟩ := exists_start_refined hx
    exact ⟨y, .init hy, href⟩
  · rintro x q _ ⟨y, hy, href⟩ _
    obtain ⟨c, hc⟩ := Mirrors.start x.threads.length q
    exact ⟨_, .move (.call c) hy trivial rfl, href.entered hc⟩
  · rintro x j a r g' r' _ ⟨y, hy, href⟩ _ ht hs
    cases hs with
    | member hk hc =>
        obtain ⟨p, hp, hm⟩ := href.threads j _ ht
        exact ⟨y, hy, href.stutter ht hp rfl List.length_set hm⟩
    | client hn => exact href.client hy ht (MultiPool.Client.next_step hn)

end AntsPool.Delivery
