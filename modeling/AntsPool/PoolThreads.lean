import AntsPool.PoolState

/-!
# The steps of the pool's threads

One definition for each function of the source that a thread runs: `try_submit`
with `retrieve_worker`, `work` with `revert_worker`, the two background threads,
`release` with `release_context`, `reboot` and `tune`. A step makes one access
to shared data. What only the holder of the spin lock touches, the queue, is
accessed together with the neighbouring step, and so is `waiting`, which only the
holder of the lock writes. A step of a thread that is blocked, or that waits for
the spin lock while it is held, is `none`.
-/
namespace AntsPool

variable {Q : Type} [IdleQueue Q]

namespace Submit

/-- `workers.detach()`, the lock being held; it is released when a worker is found. -/
def detach (s : PoolCore Q) (t : Submit) : PoolCore Q × Submit :=
  match IdleQueue.detach s.workers with
  | (some w, q) => ({ s with workers := q, locked := false }, { t with pc := .input w })
  | (none, q) => ({ s with workers := q, locked := true }, { t with pc := .readCap })

/-- Whether `retrieve_worker` gives up instead of waiting. -/
def overloaded (o : Options) (s : PoolCore Q) : Bool :=
  o.nonblocking || (o.maxBlockingTasks != 0 && decide (o.maxBlockingTasks ≤ s.waiting))

/-- `run`, the lock being held and then released. -/
def run (s : PoolCore Q) (t : Submit) (worker : ℕ) : PoolCore Q × Submit × List Thread :=
  ({ s with running := s.running + 1, locked := false }, { t with pc := .input worker },
    [.work { worker := worker }])

/-- `Cond::wait` up to the first pass of its loop. The lock is released with the
registration, before anyone else can change the condition variable. -/
def park (s : PoolCore Q) (t : Submit) : PoolCore Q × Submit :=
  let c := s.cond.register
  match c.poll c.generation with
  | some c' => ({ s with cond := c', locked := false }, { t with waited := true, pc := .woken })
  | none =>
      ({ s with cond := c, locked := false },
        { t with waited := true, pc := .parked c.generation })

def next (o : Options) (s : PoolCore Q) (t : Submit) : Option (PoolCore Q × Submit × List Thread) :=
  match t.pc with
  | .checkClosed =>
      some (s, { t with pc := if s.isClosed then .err .poolClosed else .lock }, [])
  | .lock => if s.locked then none else some ((detach s t).1, (detach s t).2, [])
  | .readCap =>
      let capacity := s.capacity
      some (s, { t with pc := if capacity = -1 then .spawn else .readRunning capacity }, [])
  | .readRunning capacity =>
      if s.running < capacity then some (s, { t with pc := .spawn }, [])
      else if overloaded o s then
        some ({ s with locked := false }, { t with pc := .err .poolOverload }, [])
      else some ({ s with waiting := s.waiting + 1 }, { t with pc := .park }, [])
  | .spawn => some (s.fetchCachedWorker.2, { t with pc := .run s.fetchCachedWorker.1 }, [])
  | .run w => some (run s t w)
  | .park => some ((park s t).1, (park s t).2, [])
  | .parked generation =>
      (s.cond.poll generation).map fun c => ({ s with cond := c }, { t with pc := .woken }, [])
  | .woken =>
      if s.locked then none
      else some ({ s with locked := true, waiting := s.waiting - 1 }, { t with pc := .recheck }, [])
  | .recheck =>
      if s.isClosed then some ({ s with locked := false }, { t with pc := .err .poolClosed }, [])
      else some ((detach s t).1, (detach s t).2, [])
  | .input w => some (s.send w (.payload t.payload), { t with pc := .ok w }, [])
  | .ok _ => none
  | .err _ => none

end Submit

namespace Work

/-- `receiver.recv()`; `none` while the channel is empty. -/
def recv (s : PoolCore Q) (t : Work) : Option (PoolCore Q × Work) :=
  let g := s.goWorkers t.worker
  match g.channel with
  | [] => none
  | m :: rest =>
      let s :=
        { s with goWorkers := Function.update s.goWorkers t.worker { g with channel := rest } }
      match m with
      | .payload p =>
          some ({ s with past := { s.past with received := (p.id, t.worker) :: s.past.received } },
            { t with pc := .call p })
      | .finish => some (s, { t with pc := .exit })

/-- `workers.insert(worker)` with the signal, the lock being held and then released. -/
def insert (s : PoolCore Q) (t : Work) : PoolCore Q × Work :=
  match IdleQueue.insert t.worker s.workers with
  | .ok q =>
      ({ s with workers := q, cond := s.cond.signal, locked := false }, { t with pc := .recv })
  | .error _ => ({ s with locked := false }, { t with pc := .exit })

def next (s : PoolCore Q) (t : Work) (env : Env) : Option (PoolCore Q × Work) :=
  match t.pc with
  | .recv => recv s t
  | .call p =>
      if p.stop then some (s, { t with pc := .exit })
      else if env = .ok then some (s, { t with pc := .revertCap })
      else some (s, { t with panicked := true, pc := .exit })
  | .revertCap =>
      let capacity := s.capacity
      some (s, { t with pc := if 0 < capacity then .revertRunning capacity else .revertClosed })
  | .revertRunning capacity =>
      some (s, { t with pc := if capacity < s.running then .refuse else .revertClosed })
  | .revertClosed => some (s, { t with pc := if s.isClosed then .refuse else .stamp })
  | .refuse => some ({ s with cond := s.cond.broadcast }, { t with pc := .exit })
  | .stamp =>
      let g := s.goWorkers t.worker
      some (
        { s with goWorkers := Function.update s.goWorkers t.worker { g with lastUsed := s.now } },
        { t with pc := .revertLock })
  | .revertLock =>
      if s.locked then none
      else if s.isClosed then some (s, { t with pc := .exit })
      else some ({ s with locked := true }, { t with pc := .insert })
  | .insert => some (insert s t)
  | .exit =>
      let s := { s with running := s.running - 1 }
      some (s, { t with pc := if s.running = 0 then .exitClosed else .recycle })
  | .exitClosed => some (s, { t with pc := if s.isClosed then .latchFetch else .recycle })
  | .latchFetch => some (s, { t with pc := .latchClose s.allDone })
  | .latchClose latch => some (s.closeEvent latch, { t with pc := .recycle })
  | .recycle =>
      some (s.recycle t.worker, { t with pc := if t.panicked then .report else .signal })
  | .report => some (s, { t with pc := if env = .ok then .signal else .unwound })
  | .signal => some ({ s with cond := s.cond.signal }, { t with pc := .returned })
  | .returned => none
  | .unwound => none

end Work

/-- `purge_stale_workers`. A tick has passed when the wait ends and the context
is not cancelled. -/
def Purge.next (o : Options) (s : PoolCore Q) : Purge → Option (PoolCore Q × Purge)
  | .start =>
      match s.purgeCtx with
      | none => some (s, .done)
      | some ctx => some (s, .tick ctx)
  | .tick ctx => some (s, if s.events ctx then .done else .checkClosed ctx)
  | .checkClosed ctx => some (s, if s.isClosed then .done else .refresh ctx)
  | .refresh ctx =>
      if s.locked then none
      else
        match IdleQueue.refresh s.stamp s.clock o.expiryDuration s.workers with
        | none => some (s, .panicked)
        | some r =>
            let dormant := decide (s.running = 0 ∨ s.running = r.1.length)
            some ({ s with workers := r.2 }, .finish ctx r.1 dormant)
  | .finish ctx (w :: stale) dormant => some (s.finish w, .finish ctx stale dormant)
  | .finish ctx [] dormant =>
      some (s, if dormant ∧ 0 < s.waiting then .broadcast ctx else .tick ctx)
  | .broadcast ctx => some ({ s with cond := s.cond.broadcast }, .tick ctx)
  | .done => some ({ s with purgeDone := true }, .returned)
  | .returned => none
  | .panicked => none

def Ticktock.next (s : PoolCore Q) : Ticktock → Option (PoolCore Q × Ticktock)
  | .start =>
      match s.ticktockCtx with
      | none => some (s, .done)
      | some ctx => some (s, .tick ctx)
  | .tick ctx => some (s, if s.events ctx then .done else .checkClosed ctx)
  | .checkClosed ctx => some (s, if s.isClosed then .done else .store ctx)
  | .store ctx => some ({ s with now := s.clock }, .tick ctx)
  | .done => some ({ s with ticktockDone := true }, .returned)
  | .returned => none

namespace Release

/-- What follows `release()`: nothing, or the waiting part of `release_context`. -/
def afterRelease (t : Release) : Release :=
  { t with pc := if t.mode = .context true then .waitFetch else .returned none }

/-- `ctx.err()`, with the program counter for a context that is still live. -/
def live (t : Release) (env : Env) (pc : ReleasePc) : Release :=
  { t with pc := match env with
                 | .fault => .returned (some .canceled)
                 | .deadline => .returned (some .deadlineExceeded)
                 | _ => pc }

/-- `workers.reset()` by thread `i`, with the lock taken and released. -/
def reset (i : ℕ) (s : PoolCore Q) : PoolCore Q :=
  let parked := IdleQueue.items s.workers
  let r := IdleQueue.reset s.workers
  let s := { s with workers := r.2 }.finishAll r.1
  { s with past := { s.past with
      drained := if s.past.closer = some i then some parked else s.past.drained } }

def next (o : Options) (i : ℕ) (s : PoolCore Q) (t : Release) (env : Env) :
    Option (PoolCore Q × Release) :=
  match t.pc with
  | .entryClosed =>
      some (s, { t with pc := if s.isClosed then .returned (some .poolClosed) else .entryPurge })
  | .entryPurge =>
      some (s, { t with pc := if ¬ o.disablePurge ∧ s.stopPurge = none
                              then .returned (some .poolClosed) else .entryTicktock })
  | .entryTicktock =>
      some (s, { t with pc := if s.stopTicktock = none
                              then .returned (some .poolClosed) else .copyPurgeCtx })
  | .copyPurgeCtx => some (s, { t with purgeCtx := s.purgeCtx, pc := .copyTicktockCtx })
  | .copyTicktockCtx => some (s, { t with ticktockCtx := s.ticktockCtx, pc := .exchange })
  | .exchange =>
      if s.isClosed then some (s, t.afterRelease)
      else
        some ({ s with state := .closed,
                       past := { s.past with closer := some i, finished := [], drained := none } },
          { t with pc := .takePurge })
  | .takePurge =>
      match s.stopPurge with
      | none => some (s, { t with pc := .takeTicktock })
      | some ctx => some ({ s with stopPurge := none }, { t with pc := .cancelPurge ctx })
  | .cancelPurge ctx => some (s.closeEvent ctx, { t with pc := .takeTicktock })
  | .takeTicktock =>
      match s.stopTicktock with
      | none => some (s, { t with pc := .reset })
      | some ctx => some ({ s with stopTicktock := none }, { t with pc := .cancelTicktock ctx })
  | .cancelTicktock ctx => some (s.closeEvent ctx, { t with pc := .reset })
  | .reset => if s.locked then none else some (reset i s, { t with pc := .broadcast })
  | .broadcast => some ({ s with cond := s.cond.broadcast }, { t with pc := .checkRunning })
  | .checkRunning =>
      some (s, if s.running = 0 then { t with pc := .latchFetch } else t.afterRelease)
  | .latchFetch => some (s, { t with pc := .latchClose s.allDone })
  | .latchClose latch => some (s.closeEvent latch, t.afterRelease)
  | .waitFetch => some (s, { t with pc := .waitLatch s.allDone })
  | .waitLatch latch =>
      some (s, { t with pc := if s.events latch then .waitPurgeCtx latch else .ctxErr latch })
  | .ctxErr latch => some (s, t.live env (.waitTimeout latch))
  | .waitTimeout latch =>
      some (s, { t with pc := if s.events latch then .waitPurgeCtx latch else .waitLatch latch })
  | .waitPurgeCtx latch =>
      if o.disablePurge then some (s, { t with pc := .waitTicktockCtx latch })
      else
        match t.purgeCtx with
        | none => some (s, { t with pc := .waitTicktockCtx latch })
        | some ctx =>
            if s.events ctx then some (s, { t with pc := .waitTicktockCtx latch }) else none
  | .waitTicktockCtx latch =>
      match t.ticktockCtx with
      | none => some (s, { t with pc := .testRunning latch })
      | some ctx => if s.events ctx then some (s, { t with pc := .testRunning latch }) else none
  | .testRunning latch =>
      some (s, { t with pc := if s.running = 0 then
                                if o.disablePurge then .testTicktockDone latch
                                else .testPurgeDone latch
                              else .retry latch })
  | .testPurgeDone latch =>
      some (s, { t with pc := if s.purgeDone then .testTicktockDone latch else .retry latch })
  | .testTicktockDone latch =>
      some (s, { t with pc := if s.ticktockDone then .returned none else .retry latch })
  | .retry latch => some (s, t.live env (.waitLatch latch))
  | .returned _ => none

end Release

def Reboot.next (o : Options) (s : PoolCore Q) : Reboot → Option (PoolCore Q × Reboot × List Thread)
  | .checkState => some (s, if s.isClosed then .latchFetch else .returned, [])
  | .latchFetch => some (s, .latchWait s.allDone, [])
  | .latchWait latch => if s.events latch then some (s, .waitPurge, []) else none
  | .waitPurge => if o.disablePurge ∨ s.purgeDone then some (s, .waitTicktock, []) else none
  | .waitTicktock => if s.ticktockDone then some (s, .exchange, []) else none
  | .exchange =>
      if s.isClosed then some ({ s with state := .opened }, .clearPurge, [])
      else some (s, .returned, [])
  | .clearPurge =>
      some ({ s with purgeDone := false }, if o.disablePurge then .clearTicktock else .purgeCtx, [])
  | .purgeCtx => some (s.goPurgeCtx.2, .purgeStop s.goPurgeCtx.1, [])
  | .purgeStop ctx => some ({ s with stopPurge := some ctx }, .purgeSpawn, [])
  | .purgeSpawn => some (s, .clearTicktock, [.purge .start])
  | .clearTicktock => some ({ s with ticktockDone := false }, .ticktockNow, [])
  | .ticktockNow => some ({ s with now := s.clock }, .ticktockCtx, [])
  | .ticktockCtx => some (s.goTicktockCtx.2, .ticktockStop s.goTicktockCtx.1, [])
  | .ticktockStop ctx => some ({ s with stopTicktock := some ctx }, .ticktockSpawn, [])
  | .ticktockSpawn => some (s, .replaceLatch, [.ticktock .start])
  | .replaceLatch => some ({ (s.newEvent.2) with allDone := s.newEvent.1 }, .returned, [])
  | .returned => none

def Tune.next (o : Options) (s : PoolCore Q) : Tune → Option (PoolCore Q × Tune)
  | .readCap size =>
      let capacity := s.capacity
      if capacity = -1 ∨ size ≤ 0 ∨ size = capacity ∨ o.preAlloc then some (s, .returned)
      else some (s, .store size capacity)
  | .store size capacity =>
      let past := { s.past with capacities := size :: s.past.capacities }
      some ({ s with capacity := size, past := past },
        if capacity < size then (if size - capacity = 1 then .signal else .broadcast)
        else .returned)
  | .signal => some ({ s with cond := s.cond.signal }, .returned)
  | .broadcast => some ({ s with cond := s.cond.broadcast }, .returned)
  | .returned => none

/-- One step of thread `i`. -/
def Thread.next (o : Options) (s : PoolCore Q) (i : ℕ) (t : Thread) (env : Env) :
    Option (PoolCore Q × Thread × List Thread) :=
  match t with
  | .submit t => (t.next o s).map fun r => (r.1, .submit r.2.1, r.2.2)
  | .work t => (t.next s env).map fun r => (r.1, .work r.2, [])
  | .purge t => (t.next o s).map fun r => (r.1, .purge r.2, [])
  | .ticktock t => (t.next s).map fun r => (r.1, .ticktock r.2, [])
  | .release t => (t.next o i s env).map fun r => (r.1, .release r.2, [])
  | .reboot t => (t.next o s).map fun r => (r.1, .reboot r.2.1, r.2.2)
  | .tune t => (t.next o s).map fun r => (r.1, .tune r.2, [])
  | .clock =>
      match env with
      | .time now => some ({ s with clock := now }, .clock, [])
      | _ => none

/-- A pool with options `o` and everything that runs on it. -/
def program (o : Options) (Q : Type := WorkerQueue ℕ) [IdleQueue Q] :
    Interleaving.Program (PoolCore Q) Thread Call Env where
  start i c := c.start i
  next s i t env := t.next o s i env

end AntsPool
