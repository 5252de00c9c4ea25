import AntsPool.Cond
import AntsPool.Interleaving
import AntsPool.WorkerQueue
import Mathlib.Logic.Function.Basic

/-!
# The state of a pool and of the threads that use it

`PoolCore` has the fields of `pool_common.rs` under the source's names, and after
them what its `Arc`s point to: the `GoWorker`s and the one-shot `Event`s, both
numbered in order of creation. A context is the event that cancels it. A
one-or-zero counter is a Boolean. Last come history variables that no step
reads.

The queue of idle workers is a parameter. Unless another one is named it is the
`WorkerQueue` whose ring is refreshed in checked arithmetic, so a pool as written
here is one of a build with overflow checks.

A thread is one call or one background thread of the crate. Its program counter
names the next access to shared data; between two accesses a thread only
computes. A `Submit` keeps the payload it was called with.
-/
namespace AntsPool

structure Options where
  expiryDuration : ℤ := 0
  preAlloc : Bool := false
  maxBlockingTasks : ℤ := 0
  nonblocking : Bool := false
  disablePurge : Bool := false
deriving Repr, DecidableEq

/-- One second, in nanoseconds. -/
def defaultCleanIntervalTime : ℤ := 1000000000

inductive PoolState
  | opened
  | closed
deriving Repr, DecidableEq

/-- A unit of work, named by the thread that submitted it. `stop` marks the nil
payload, for which `run_payload` returns `false`. -/
structure Payload where
  id : ℕ
  stop : Bool
deriving Repr, DecidableEq

inductive Message
  | payload (p : Payload)
  | finish
deriving Repr, DecidableEq

/-- The channel lists the messages sent and not yet received. A send is one step:
a sender that has to wait is a thread that takes its next step later. -/
structure GoWorker where
  channel : List Message := []
  lastUsed : ℤ := 0

/-- History variables. -/
structure History where
  /-- Every capacity the pool has had, the current one first. -/
  capacities : List ℤ
  /-- The thread that made the latest exchange from opened to closed. -/
  closer : Option ℕ
  /-- Workers sent a `Finish` since that exchange. -/
  finished : List ℕ
  /-- The queue at the reset of that thread, once it has made it. -/
  drained : Option (List ℕ)
  /-- Payloads received, each with the worker whose thread received it. -/
  received : List (ℕ × ℕ)

structure PoolCore (Q : Type := WorkerQueue ℕ) where
  capacity : ℤ
  running : ℤ
  /-- Whether the spin lock is held; `workers` is what it protects. -/
  locked : Bool
  workers : Q
  state : PoolState
  cond : Cond
  allDone : ℕ
  workerCache : List ℕ
  waiting : ℤ
  purgeDone : Bool
  purgeCtx : Option ℕ
  stopPurge : Option ℕ
  ticktockDone : Bool
  ticktockCtx : Option ℕ
  stopTicktock : Option ℕ
  now : ℤ
  goWorkers : ℕ → GoWorker
  goWorkerCount : ℕ
  /-- Whether event number `e` is closed. -/
  events : ℕ → Bool
  eventCount : ℕ
  /-- The wall clock. -/
  clock : ℤ
  past : History

namespace PoolCore
variable {Q : Type}

def isClosed (s : PoolCore Q) : Bool := s.state == .closed

/-- The number of available workers; `-1` for an unlimited pool. -/
def free (s : PoolCore Q) : ℤ := if s.capacity < 0 then -1 else s.capacity - s.running

def stamp (s : PoolCore Q) (w : ℕ) : ℤ := (s.goWorkers w).lastUsed

def send (s : PoolCore Q) (w : ℕ) (m : Message) : PoolCore Q :=
  let g := s.goWorkers w
  { s with goWorkers := Function.update s.goWorkers w { g with channel := g.channel ++ [m] } }

/-- `worker.finish()`. -/
def finish (s : PoolCore Q) (w : ℕ) : PoolCore Q :=
  { (s.send w .finish) with past := { s.past with finished := w :: s.past.finished } }

def finishAll (s : PoolCore Q) : List ℕ → PoolCore Q
  | [] => s
  | w :: ws => (s.finish w).finishAll ws

/-- `Event::close`. -/
def closeEvent (s : PoolCore Q) (e : ℕ) : PoolCore Q :=
  { s with events := Function.update s.events e true }

/-- `Event::new`, the number it gets and the pool with it. -/
def newEvent (s : PoolCore Q) : ℕ × PoolCore Q :=
  (s.eventCount,
    { s with events := Function.update s.events s.eventCount false,
             eventCount := s.eventCount + 1 })

/-- `workerCache.Get`: the last worker put back, or a new one. -/
def fetchCachedWorker (s : PoolCore Q) : ℕ × PoolCore Q :=
  match s.workerCache with
  | w :: rest => (w, { s with workerCache := rest })
  | [] =>
      (s.goWorkerCount,
        { s with goWorkers := Function.update s.goWorkers s.goWorkerCount {},
                 goWorkerCount := s.goWorkerCount + 1 })

/-- `workerCache.Put`. -/
def recycle (s : PoolCore Q) (w : ℕ) : PoolCore Q := { s with workerCache := w :: s.workerCache }

/-- The first assignment of `go_purge`, with the context it makes. -/
def goPurgeCtx (s : PoolCore Q) : ℕ × PoolCore Q :=
  (s.newEvent.1, { (s.newEvent.2) with purgeCtx := some s.newEvent.1 })

/-- The first assignment of `go_ticktock` after the clock, with its context. -/
def goTicktockCtx (s : PoolCore Q) : ℕ × PoolCore Q :=
  (s.newEvent.1, { (s.newEvent.2) with ticktockCtx := some s.newEvent.1 })

end PoolCore

inductive SubmitPc
  | checkClosed
  | lock
  | readCap
  | readRunning (capacity : ℤ)
  | spawn
  | run (worker : ℕ)
  | park
  | parked (generation : ℕ)
  | woken
  | recheck
  | input (worker : ℕ)
  | ok (worker : ℕ)
  | err (e : Error)
deriving Repr, DecidableEq

/-- A call of `try_submit` or `try_invoke`. `waited` records that it has been
admitted to `Cond::wait`. -/
structure Submit where
  payload : Payload
  waited : Bool := false
  pc : SubmitPc := .checkClosed
deriving Repr, DecidableEq

inductive WorkerPc
  | recv
  | call (p : Payload)
  | revertCap
  | revertRunning (capacity : ℤ)
  | revertClosed
  | refuse
  | stamp
  | revertLock
  | insert
  | exit
  | exitClosed
  | latchFetch
  | latchClose (latch : ℕ)
  | recycle
  | report
  | signal
  | returned
  | unwound
deriving Repr, DecidableEq

/-- The thread started by `run` for one worker. -/
structure Work where
  worker : ℕ
  panicked : Bool := false
  pc : WorkerPc := .recv
deriving Repr, DecidableEq

inductive Purge
  | start
  | tick (ctx : ℕ)
  | checkClosed (ctx : ℕ)
  | refresh (ctx : ℕ)
  | finish (ctx : ℕ) (stale : List ℕ) (dormant : Bool)
  | broadcast (ctx : ℕ)
  | done
  | returned
  /-- The thread has died in `refresh`; unwinding has released the lock. -/
  | panicked
deriving Repr, DecidableEq

inductive Ticktock
  | start
  | tick (ctx : ℕ)
  | checkClosed (ctx : ℕ)
  | store (ctx : ℕ)
  | done
  | returned
deriving Repr, DecidableEq

/-- `release()`, or `release_context` with or without a context. -/
inductive ReleaseMode
  | plain
  | context (hasCtx : Bool)
deriving Repr, DecidableEq

inductive ReleasePc
  | entryClosed
  | entryPurge
  | entryTicktock
  | copyPurgeCtx
  | copyTicktockCtx
  | exchange
  | takePurge
  | cancelPurge (ctx : ℕ)
  | takeTicktock
  | cancelTicktock (ctx : ℕ)
  | reset
  | broadcast
  | checkRunning
  | latchFetch
  | latchClose (latch : ℕ)
  | waitFetch
  | waitLatch (latch : ℕ)
  | ctxErr (latch : ℕ)
  | waitTimeout (latch : ℕ)
  | waitPurgeCtx (latch : ℕ)
  | waitTicktockCtx (latch : ℕ)
  | testRunning (latch : ℕ)
  | testPurgeDone (latch : ℕ)
  | testTicktockDone (latch : ℕ)
  | retry (latch : ℕ)
  | returned (result : Option Error)
deriving Repr, DecidableEq

structure Release where
  mode : ReleaseMode
  purgeCtx : Option ℕ := none
  ticktockCtx : Option ℕ := none
  pc : ReleasePc
deriving Repr, DecidableEq

inductive Reboot
  | checkState
  | latchFetch
  | latchWait (latch : ℕ)
  | waitPurge
  | waitTicktock
  | exchange
  | clearPurge
  | purgeCtx
  | purgeStop (ctx : ℕ)
  | purgeSpawn
  | clearTicktock
  | ticktockNow
  | ticktockCtx
  | ticktockStop (ctx : ℕ)
  | ticktockSpawn
  | replaceLatch
  | returned
deriving Repr, DecidableEq

inductive Tune
  | readCap (size : ℤ)
  | store (size capacity : ℤ)
  | signal
  | broadcast
  | returned
deriving Repr, DecidableEq

inductive Thread
  | submit (t : Submit)
  | work (t : Work)
  | purge (t : Purge)
  | ticktock (t : Ticktock)
  | release (t : Release)
  | reboot (t : Reboot)
  | tune (t : Tune)
  | clock
deriving Repr, DecidableEq

/-- What the code does not decide: whether a payload or a panic handler returns,
whether a caller's context is done, and the time. -/
inductive Env
  | ok
  | fault
  | deadline
  | time (now : ℤ)
deriving Repr, DecidableEq

inductive Call
  | submit (stop : Bool)
  | tune (size : ℤ)
  | release
  | releaseContext (hasCtx : Bool)
  | reboot
deriving Repr, DecidableEq

def Call.start (i : ℕ) : Call → Thread
  | .submit stop => .submit { payload := ⟨i, stop⟩ }
  | .tune size => .tune (.readCap size)
  | .release => .release { mode := .plain, pc := .exchange }
  | .releaseContext hasCtx => .release { mode := .context hasCtx, pc := .entryClosed }
  | .reboot => .reboot .checkState

abbrev Config (Q : Type := WorkerQueue ℕ) := Interleaving.Config (PoolCore Q) Thread

/-- `PoolCore::new`, with the options it keeps and the threads it starts; `none`
is a panic. The wall clock is a thread of its own. -/
def PoolCore.new (size : ℤ) (options : Options) (clock : ℤ) (Q : Type := WorkerQueue ℕ)
    [IdleQueue Q] : Option (Except Error (Options × Config Q)) :=
  let size := if size ≤ 0 then -1 else size
  let expiry := options.expiryDuration
  if ¬ options.disablePurge ∧ expiry < 0 then some (.error .invalidPoolExpiry)
  else
    let opts :=
      if ¬ options.disablePurge ∧ expiry = 0 then
        { options with expiryDuration := defaultCleanIntervalTime }
      else options
    if opts.preAlloc ∧ size = -1 then some (.error .invalidPreAllocSize)
    else
      (if opts.preAlloc then IdleQueue.new .loopQueue size else IdleQueue.new .stack 0).map
        fun workers =>
          let pool : PoolCore Q :=
            { capacity := size, running := 0, locked := false, workers := workers,
              state := .opened, cond := Cond.new, allDone := 0, workerCache := [], waiting := 0,
              purgeDone := false, purgeCtx := none, stopPurge := none,
              ticktockDone := false, ticktockCtx := none, stopTicktock := none, now := 0,
              goWorkers := fun _ => {}, goWorkerCount := 0,
              events := fun _ => false, eventCount := 1, clock := clock,
              past := ⟨[size], none, [], none, []⟩ }
          let pool := if opts.disablePurge then pool else
            { (pool.goPurgeCtx.2) with stopPurge := some pool.goPurgeCtx.1 }
          let pool := { pool with now := clock }
          let pool := { (pool.goTicktockCtx.2) with stopTicktock := some pool.goTicktockCtx.1 }
          .ok (opts, ⟨pool, .clock :: (if opts.disablePurge then [] else [.purge .start]) ++
            [.ticktock .start]⟩)

end AntsPool
