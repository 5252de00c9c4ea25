import AntsPool.Builds

/-!
# Threads that run by themselves

What a caller, a worker, the scavenger and a release make of a pool when nobody else
moves, for any queue that a pool may have.
-/
namespace AntsPool
open Interleaving

section Solo
variable {Q : Type} [IdleQueue Q] {o : Options} {i : ℕ} {s : PoolCore Q}

namespace PoolCore

/-- After a caller has started a new worker and handed its payload over. -/
def spawned (s : PoolCore Q) (p : Payload) : PoolCore Q :=
  { s with
    running := s.running + 1
    locked := false
    goWorkers := Function.update s.goWorkers s.goWorkerCount ⟨[.payload p], 0⟩
    goWorkerCount := s.goWorkerCount + 1 }

/-- After a caller has handed its payload to worker `w`, which leaves the queue `q`. -/
def dispatched (s : PoolCore Q) (w : ℕ) (p : Payload) (q : Q) : PoolCore Q :=
  { s with workers := q, locked := false }.send w (.payload p)

/-- When worker `w` has executed its payload and is about to be put back. -/
def executed (s : PoolCore Q) (w : ℕ) (p : Payload) : PoolCore Q :=
  { s with
    locked := true
    goWorkers := Function.update s.goWorkers w ⟨[], s.now⟩
    past := { s.past with received := (p.id, w) :: s.past.received } }

end PoolCore

theorem solo_spawn {p : Payload} (ho : s.state = .opened) (hl : s.locked = false)
    (hd : IdleQueue.detach s.workers = (none, s.workers)) (hcap : s.running < s.capacity)
    (hne : s.capacity ≠ -1) (hcache : s.workerCache = []) :
    (program o Q).solo i s (.submit { payload := p }) (List.replicate 7 .ok) =
      some (s.spawned p, .submit ⟨p, false, .ok s.goWorkerCount⟩,
        [.work { worker := s.goWorkerCount }]) := by
  have lift {s s' : PoolCore Q} {t t' : Submit} {new : List Thread}
      (h : t.next o s = some (s', t', new)) :
      (program o Q).next s i (.submit t) .ok = some (s', .submit t', new) := by
    simp [program, Thread.next, h]
  have hcheck : Submit.next o s { payload := p } = some (s, ⟨p, false, .lock⟩, []) := by
    simp [Submit.next, PoolCore.isClosed, ho]
  have hlock : Submit.next o s ⟨p, false, .lock⟩ =
      some ({ s with locked := true }, ⟨p, false, .readCap⟩, []) := by
    simp [Submit.next, Submit.detach, hl, hd]
  have hread : Submit.next o { s with locked := true } ⟨p, false, .readCap⟩ =
      some ({ s with locked := true }, ⟨p, false, .readRunning s.capacity⟩, []) := by
    simp [Submit.next, hne]
  have hroom : Submit.next o { s with locked := true } ⟨p, false, .readRunning s.capacity⟩ =
      some ({ s with locked := true }, ⟨p, false, .spawn⟩, []) := by
    simp [Submit.next, hcap]
  have hnew : Submit.next o { s with locked := true } ⟨p, false, .spawn⟩ =
      some ({ s with
        locked := true
        goWorkers := Function.update s.goWorkers s.goWorkerCount {}
        goWorkerCount := s.goWorkerCount + 1 }, ⟨p, false, .run s.goWorkerCount⟩, []) := by
    simp [Submit.next, PoolCore.fetchCachedWorker, hcache]
  have hsend : s.spawned p = PoolCore.send { s with
      running := s.running + 1
      locked := false
      goWorkers := Function.update s.goWorkers s.goWorkerCount {}
      goWorkerCount := s.goWorkerCount + 1 } s.goWorkerCount (.payload p) := by
    simp [PoolCore.send, PoolCore.spawned]
  have h := Program.solo_cons (lift hcheck) <| Program.solo_cons (lift hlock) <|
    Program.solo_cons (lift hread) <| Program.solo_cons (lift hroom) <|
    Program.solo_cons (lift hnew) <| Program.solo_cons (lift rfl) <|
    Program.solo_cons (lift rfl) (Program.solo_nil _ i _ _)
  rw [hsend]
  exact h

theorem solo_dispatch {p : Payload} {w : ℕ} {q : Q} (ho : s.state = .opened)
    (hl : s.locked = false) (hd : IdleQueue.detach s.workers = (some w, q)) :
    (program o Q).solo i s (.submit { payload := p }) (List.replicate 3 .ok) =
      some (s.dispatched w p q, .submit ⟨p, false, .ok w⟩, []) := by
  have lift {s s' : PoolCore Q} {t t' : Submit} {new : List Thread}
      (h : t.next o s = some (s', t', new)) :
      (program o Q).next s i (.submit t) .ok = some (s', .submit t', new) := by
    simp [program, Thread.next, h]
  have hcheck : Submit.next o s { payload := p } = some (s, ⟨p, false, .lock⟩, []) := by
    simp [Submit.next, PoolCore.isClosed, ho]
  have hlock : Submit.next o s ⟨p, false, .lock⟩ =
      some ({ s with workers := q, locked := false }, ⟨p, false, .input w⟩, []) := by
    simp [Submit.next, Submit.detach, hl, hd]
  have h := Program.solo_cons (lift hcheck) <| Program.solo_cons (lift hlock) <|
    Program.solo_cons (lift rfl) (Program.solo_nil _ i _ _)
  exact h

theorem solo_execute {p : Payload} {w : ℕ} (ho : s.state = .opened) (hl : s.locked = false)
    (hp : p.stop = false) (hc : (s.goWorkers w).channel = [.payload p]) (hcap : 0 < s.capacity)
    (hr : s.running ≤ s.capacity) :
    (program o Q).solo i s (.work { worker := w }) (List.replicate 7 .ok) =
      some (s.executed w p, .work ⟨w, false, .insert⟩, []) := by
  have lift {s s' : PoolCore Q} {t t' : Work} (h : t.next s .ok = some (s', t')) :
      (program o Q).next s i (.work t) .ok = some (s', .work t', []) := by
    simp [program, Thread.next, h]
  let s₁ : PoolCore Q := { s with
    goWorkers := Function.update s.goWorkers w { s.goWorkers w with channel := [] }
    past := { s.past with received := (p.id, w) :: s.past.received } }
  let s₂ : PoolCore Q := { s₁ with goWorkers := Function.update s.goWorkers w ⟨[], s.now⟩ }
  have hrecv : Work.next s { worker := w } .ok = some (s₁, ⟨w, false, .call p⟩) := by
    simp [Work.next, Work.recv, hc, s₁]
  have hcall : Work.next s₁ ⟨w, false, .call p⟩ .ok = some (s₁, ⟨w, false, .revertCap⟩) := by
    simp [Work.next, hp]
  have hbounded : Work.next s₁ ⟨w, false, .revertCap⟩ .ok =
      some (s₁, ⟨w, false, .revertRunning s.capacity⟩) := by
    simp [Work.next, s₁, hcap]
  have hwithin : Work.next s₁ ⟨w, false, .revertRunning s.capacity⟩ .ok =
      some (s₁, ⟨w, false, .revertClosed⟩) := by
    simp [Work.next, s₁, hr]
  have hopened : Work.next s₁ ⟨w, false, .revertClosed⟩ .ok = some (s₁, ⟨w, false, .stamp⟩) := by
    simp [Work.next, s₁, PoolCore.isClosed, ho]
  have hstamp : Work.next s₁ ⟨w, false, .stamp⟩ .ok = some (s₂, ⟨w, false, .revertLock⟩) := by
    simp [Work.next, s₁, s₂]
  have hlock : Work.next s₂ ⟨w, false, .revertLock⟩ .ok =
      some (s.executed w p, ⟨w, false, .insert⟩) := by
    simp [Work.next, s₁, s₂, hl, PoolCore.isClosed, ho, PoolCore.executed]
  exact Program.solo_cons (lift hrecv) <| Program.solo_cons (lift hcall) <|
    Program.solo_cons (lift hbounded) <| Program.solo_cons (lift hwithin) <|
    Program.solo_cons (lift hopened) <| Program.solo_cons (lift hstamp) <|
    Program.solo_cons (lift hlock) (Program.solo_nil _ i _ _)

theorem solo_park {p : Payload} {w : ℕ} {q : Q} (ho : s.state = .opened) (hl : s.locked = false)
    (hp : p.stop = false) (hc : (s.goWorkers w).channel = [.payload p]) (hcap : 0 < s.capacity)
    (hr : s.running ≤ s.capacity) (hq : IdleQueue.insert w s.workers = .ok q) :
    (program o Q).solo i s (.work { worker := w }) (List.replicate 8 .ok) =
      some ({ s.executed w p with workers := q, cond := s.cond.signal, locked := false },
        .work { worker := w }, []) := by
  have hinsert : (program o Q).next (s.executed w p) i (.work ⟨w, false, .insert⟩) .ok =
      some ({ s.executed w p with workers := q, cond := s.cond.signal, locked := false },
        .work { worker := w }, []) := by
    simp [program, Thread.next, Work.next, Work.insert, PoolCore.executed, hq]
  exact Program.solo_append (solo_execute ho hl hp hc hcap hr)
    (Program.solo_cons hinsert (Program.solo_nil _ i _ _))

/-- The scavenger from its start to its first refresh. -/
theorem solo_refresh {c : ℕ} {stale : List ℕ} {q : Q} (ho : s.state = .opened)
    (hl : s.locked = false) (hctx : s.purgeCtx = some c) (he : s.events c = false)
    (hr : s.refreshed o = some (stale, q)) :
    ∃ dormant, (program o Q).solo i s (.purge .start) (List.replicate 4 .ok) =
      some ({ s with workers := q }, .purge (.finish c stale dormant), []) := by
  have lift {s s' : PoolCore Q} {t t' : Purge} (h : t.next o s = some (s', t')) :
      (program o Q).next s i (.purge t) .ok = some (s', .purge t', []) := by
    simp [program, Thread.next, h]
  have hstart : Purge.next o s .start = some (s, .tick c) := by simp [Purge.next, hctx]
  have htick : Purge.next o s (.tick c) = some (s, .checkClosed c) := by simp [Purge.next, he]
  have hopened : Purge.next o s (.checkClosed c) = some (s, .refresh c) := by
    simp [Purge.next, PoolCore.isClosed, ho]
  unfold PoolCore.refreshed at hr
  have hrefresh : Purge.next o s (.refresh c) = some ({ s with workers := q },
      .finish c stale (decide (s.running = 0 ∨ s.running = stale.length))) := by
    simp [Purge.next, hl, hr]
  exact ⟨_, Program.solo_cons (lift hstart) <| Program.solo_cons (lift htick) <|
    Program.solo_cons (lift hopened) <| Program.solo_cons (lift hrefresh)
      (Program.solo_nil _ i _ _)⟩

/-- A release up to its reset, on a ring that gives up nobody. -/
theorem solo_release {c d : ℕ} {q : Q} (ho : s.state = .opened) (hl : s.locked = false)
    (hpurge : s.stopPurge = some c) (hticktock : s.stopTicktock = some d)
    (hq : IdleQueue.reset s.workers = ([], q)) :
    ∃ s' : PoolCore Q, (program o Q).solo i s (.release { mode := .plain, pc := .exchange })
        (List.replicate 6 .ok) = some (s', .release ⟨.plain, none, none, .broadcast⟩, []) ∧
      s'.state = .closed ∧ s'.past.closer = some i ∧ s'.past.finished = [] ∧
      s'.past.drained = some (IdleQueue.items s.workers) := by
  have lift {s s' : PoolCore Q} {t t' : Release} (h : t.next o i s .ok = some (s', t')) :
      (program o Q).next s i (.release t) .ok = some (s', .release t', []) := by
    simp [program, Thread.next, h]
  let s₁ : PoolCore Q := { s with
    state := .closed
    past := { s.past with closer := some i, finished := [], drained := none } }
  let s₂ : PoolCore Q := { s₁ with stopPurge := none }
  let s₃ : PoolCore Q := { s₂.closeEvent c with stopTicktock := none }
  have hexchange : Release.next o i s { mode := .plain, pc := .exchange } .ok =
      some (s₁, ⟨.plain, none, none, .takePurge⟩) := by
    simp [Release.next, PoolCore.isClosed, ho, s₁]
  have htakePurge : Release.next o i s₁ ⟨.plain, none, none, .takePurge⟩ .ok =
      some (s₂, ⟨.plain, none, none, .cancelPurge c⟩) := by
    simp [Release.next, s₁, s₂, hpurge]
  have htakeTicktock : Release.next o i (s₂.closeEvent c) ⟨.plain, none, none, .takeTicktock⟩ .ok =
      some (s₃, ⟨.plain, none, none, .cancelTicktock d⟩) := by
    simp [Release.next, s₁, s₂, s₃, PoolCore.closeEvent, hticktock]
  have hreset : Release.next o i (s₃.closeEvent d) ⟨.plain, none, none, .reset⟩ .ok =
      some (Release.reset i (s₃.closeEvent d), ⟨.plain, none, none, .broadcast⟩) := by
    simp [Release.next, s₁, s₂, s₃, PoolCore.closeEvent, hl]
  have h := Program.solo_cons (lift hexchange) <| Program.solo_cons (lift htakePurge) <|
    Program.solo_cons (lift rfl) <| Program.solo_cons (lift htakeTicktock) <|
    Program.solo_cons (lift rfl) <| Program.solo_cons (lift hreset) (Program.solo_nil _ i _ _)
  refine ⟨_, h, ?_⟩
  simp [Release.reset, s₁, s₂, s₃, PoolCore.closeEvent, hq, PoolCore.finishAll]

end Solo

end AntsPool
