import AntsPool.PoolThreads

/-!
# What each step of a pool's threads can do

One relation for each kind of thread, with one constructor for each branch of its
step function. A constructor carries the test that led into the branch, so the
proofs about runs never unfold a step function: they split on these relations.
-/
namespace AntsPool
open Interleaving

inductive Submit.Step (o : Options) (s : PoolCore) :
    Submit → PoolCore → Submit → List Thread → Prop
  | closed {p b} (h : s.state = .closed) :
      Step o s ⟨p, b, .checkClosed⟩ s ⟨p, b, .err .poolClosed⟩ []
  | opened {p b} (h : s.state = .opened) : Step o s ⟨p, b, .checkClosed⟩ s ⟨p, b, .lock⟩ []
  | detachSome {p b w q} (hl : s.locked = false) (hd : s.workers.detach = (some w, q)) :
      Step o s ⟨p, b, .lock⟩ { s with workers := q } ⟨p, b, .input w⟩ []
  | detachNone {p b q} (hl : s.locked = false) (hd : s.workers.detach = (none, q)) :
      Step o s ⟨p, b, .lock⟩ { s with workers := q, locked := true } ⟨p, b, .readCap⟩ []
  | unlimited {p b} (h : s.capacity = -1) : Step o s ⟨p, b, .readCap⟩ s ⟨p, b, .spawn⟩ []
  | bounded {p b} (h : s.capacity ≠ -1) :
      Step o s ⟨p, b, .readCap⟩ s ⟨p, b, .readRunning s.capacity⟩ []
  | room {p b c} (h : s.running < c) : Step o s ⟨p, b, .readRunning c⟩ s ⟨p, b, .spawn⟩ []
  | overload {p b c} (h : c ≤ s.running) (ho : Submit.overloaded o s = true) :
      Step o s ⟨p, b, .readRunning c⟩ { s with locked := false } ⟨p, b, .err .poolOverload⟩ []
  | enlist {p b c} (h : c ≤ s.running) (ho : Submit.overloaded o s = false) :
      Step o s ⟨p, b, .readRunning c⟩ { s with waiting := s.waiting + 1 } ⟨p, b, .park⟩ []
  | spawnCached {p b w rest} (hc : s.workerCache = w :: rest) :
      Step o s ⟨p, b, .spawn⟩ { s with workerCache := rest } ⟨p, b, .run w⟩ []
  | spawnNew {p b} (hc : s.workerCache = []) :
      Step o s ⟨p, b, .spawn⟩
        { s with goWorkers := Function.update s.goWorkers s.goWorkerCount {},
                 goWorkerCount := s.goWorkerCount + 1 }
        ⟨p, b, .run s.goWorkerCount⟩ []
  | run {p b w} :
      Step o s ⟨p, b, .run w⟩ { s with running := s.running + 1, locked := false }
        ⟨p, b, .input w⟩ [.work ⟨w, false, .recv⟩]
  | parkLeaves {p b c} (hp : s.cond.register.poll s.cond.generation = some c) :
      Step o s ⟨p, b, .park⟩ { s with cond := c, locked := false } ⟨p, true, .woken⟩ []
  | parkBlocks {p b} (ht : s.cond.tokens = 0) :
      Step o s ⟨p, b, .park⟩ { s with cond := s.cond.register, locked := false }
        ⟨p, true, .parked s.cond.generation⟩ []
  | leave {p b g c} (hp : s.cond.poll g = some c) :
      Step o s ⟨p, b, .parked g⟩ { s with cond := c } ⟨p, b, .woken⟩ []
  | woken {p b} (hl : s.locked = false) :
      Step o s ⟨p, b, .woken⟩ { s with locked := true, waiting := s.waiting - 1 }
        ⟨p, b, .recheck⟩ []
  | recheckClosed {p b} (h : s.state = .closed) :
      Step o s ⟨p, b, .recheck⟩ { s with locked := false } ⟨p, b, .err .poolClosed⟩ []
  | recheckSome {p b w q} (h : s.state = .opened) (hd : s.workers.detach = (some w, q)) :
      Step o s ⟨p, b, .recheck⟩ { s with workers := q, locked := false } ⟨p, b, .input w⟩ []
  | recheckNone {p b q} (h : s.state = .opened) (hd : s.workers.detach = (none, q)) :
      Step o s ⟨p, b, .recheck⟩ { s with workers := q, locked := true } ⟨p, b, .readCap⟩ []
  | input {p b w} : Step o s ⟨p, b, .input w⟩ (s.send w (.payload p)) ⟨p, b, .ok w⟩ []

inductive Work.Step (s : PoolCore) : Work → PoolCore → Work → Prop
  | recvPayload {w b p rest} (hc : (s.goWorkers w).channel = .payload p :: rest) :
      Step s ⟨w, b, .recv⟩
        { s with goWorkers := Function.update s.goWorkers w { s.goWorkers w with channel := rest },
                 past := { s.past with received := (p.id, w) :: s.past.received } }
        ⟨w, b, .call p⟩
  | recvFinish {w b rest} (hc : (s.goWorkers w).channel = .finish :: rest) :
      Step s ⟨w, b, .recv⟩
        { s with goWorkers := Function.update s.goWorkers w { s.goWorkers w with channel := rest } }
        ⟨w, b, .exit⟩
  | stop {w b p} (h : p.stop = true) : Step s ⟨w, b, .call p⟩ s ⟨w, b, .exit⟩
  | completed {w b p} (h : p.stop = false) : Step s ⟨w, b, .call p⟩ s ⟨w, b, .revertCap⟩
  | panicked {w b p} (h : p.stop = false) : Step s ⟨w, b, .call p⟩ s ⟨w, true, .exit⟩
  | bounded {w b} (h : 0 < s.capacity) :
      Step s ⟨w, b, .revertCap⟩ s ⟨w, b, .revertRunning s.capacity⟩
  | unlimited {w b} (h : s.capacity ≤ 0) : Step s ⟨w, b, .revertCap⟩ s ⟨w, b, .revertClosed⟩
  | over {w b c} (h : c < s.running) : Step s ⟨w, b, .revertRunning c⟩ s ⟨w, b, .refuse⟩
  | within {w b c} (h : s.running ≤ c) : Step s ⟨w, b, .revertRunning c⟩ s ⟨w, b, .revertClosed⟩
  | closed {w b} (h : s.state = .closed) : Step s ⟨w, b, .revertClosed⟩ s ⟨w, b, .refuse⟩
  | opened {w b} (h : s.state = .opened) : Step s ⟨w, b, .revertClosed⟩ s ⟨w, b, .stamp⟩
  | refuse {w b} : Step s ⟨w, b, .refuse⟩ { s with cond := s.cond.broadcast } ⟨w, b, .exit⟩
  | stamp {w b} :
      Step s ⟨w, b, .stamp⟩
        { s with
            goWorkers := Function.update s.goWorkers w { s.goWorkers w with lastUsed := s.now } }
        ⟨w, b, .revertLock⟩
  | lockClosed {w b} (hl : s.locked = false) (h : s.state = .closed) :
      Step s ⟨w, b, .revertLock⟩ s ⟨w, b, .exit⟩
  | lockOpened {w b} (hl : s.locked = false) (h : s.state = .opened) :
      Step s ⟨w, b, .revertLock⟩ { s with locked := true } ⟨w, b, .insert⟩
  | insertOk {w b q} (h : s.workers.insert w = .ok q) :
      Step s ⟨w, b, .insert⟩ { s with workers := q, cond := s.cond.signal, locked := false }
        ⟨w, b, .recv⟩
  | insertFull {w b e} (h : s.workers.insert w = .error e) :
      Step s ⟨w, b, .insert⟩ { s with locked := false } ⟨w, b, .exit⟩
  | exitLast {w b} (h : s.running = 1) :
      Step s ⟨w, b, .exit⟩ { s with running := s.running - 1 } ⟨w, b, .exitClosed⟩
  | exitMore {w b} (h : s.running ≠ 1) :
      Step s ⟨w, b, .exit⟩ { s with running := s.running - 1 } ⟨w, b, .recycle⟩
  | lastClosed {w b} (h : s.state = .closed) : Step s ⟨w, b, .exitClosed⟩ s ⟨w, b, .latchFetch⟩
  | lastOpened {w b} (h : s.state = .opened) : Step s ⟨w, b, .exitClosed⟩ s ⟨w, b, .recycle⟩
  | latchFetch {w b} : Step s ⟨w, b, .latchFetch⟩ s ⟨w, b, .latchClose s.allDone⟩
  | latchClose {w b e} : Step s ⟨w, b, .latchClose e⟩ (s.closeEvent e) ⟨w, b, .recycle⟩
  | recycleReport {w} : Step s ⟨w, true, .recycle⟩ (s.recycle w) ⟨w, true, .report⟩
  | recycleSignal {w} : Step s ⟨w, false, .recycle⟩ (s.recycle w) ⟨w, false, .signal⟩
  | reported {w b} : Step s ⟨w, b, .report⟩ s ⟨w, b, .signal⟩
  | reportPanics {w b} : Step s ⟨w, b, .report⟩ s ⟨w, b, .unwound⟩
  | signal {w b} : Step s ⟨w, b, .signal⟩ { s with cond := s.cond.signal } ⟨w, b, .returned⟩

inductive Purge.Step (o : Options) (s : PoolCore) : Purge → PoolCore → Purge → Prop
  | noCtx (h : s.purgeCtx = none) : Step o s .start s .done
  | ctx {c} (h : s.purgeCtx = some c) : Step o s .start s (.tick c)
  | cancelled {c} (h : s.events c = true) : Step o s (.tick c) s .done
  | tick {c} (h : s.events c = false) : Step o s (.tick c) s (.checkClosed c)
  | closed {c} (h : s.state = .closed) : Step o s (.checkClosed c) s .done
  | opened {c} (h : s.state = .opened) : Step o s (.checkClosed c) s (.refresh c)
  | refresh {c stale q b} (hl : s.locked = false)
      (hr : s.workers.refresh s.stamp s.clock o.expiryDuration = (stale, q))
      (hb : b = decide (s.running = 0 ∨ s.running = stale.length)) :
      Step o s (.refresh c) { s with workers := q } (.finish c stale b)
  | overflow {c} (hl : s.locked = false)
      (hr : s.workers.refreshI32 s.stamp s.clock o.expiryDuration = none) :
      Step o s (.refresh c) s .panicked
  | finish {c w stale b} : Step o s (.finish c (w :: stale) b) (s.finish w) (.finish c stale b)
  | dormant {c b} (hb : b = true) (hw : 0 < s.waiting) :
      Step o s (.finish c [] b) s (.broadcast c)
  | busy {c b} (h : b = true → s.waiting ≤ 0) : Step o s (.finish c [] b) s (.tick c)
  | broadcast {c} : Step o s (.broadcast c) { s with cond := s.cond.broadcast } (.tick c)
  | done : Step o s .done { s with purgeDone := true } .returned

inductive Ticktock.Step (s : PoolCore) : Ticktock → PoolCore → Ticktock → Prop
  | noCtx (h : s.ticktockCtx = none) : Step s .start s .done
  | ctx {c} (h : s.ticktockCtx = some c) : Step s .start s (.tick c)
  | cancelled {c} (h : s.events c = true) : Step s (.tick c) s .done
  | tick {c} (h : s.events c = false) : Step s (.tick c) s (.checkClosed c)
  | closed {c} (h : s.state = .closed) : Step s (.checkClosed c) s .done
  | opened {c} (h : s.state = .opened) : Step s (.checkClosed c) s (.store c)
  | store {c} : Step s (.store c) { s with now := s.clock } (.tick c)
  | done : Step s .done { s with ticktockDone := true } .returned

/-- Where a release continues once `release()` is over. -/
inductive Release.After : ReleaseMode → ReleasePc → Prop
  | wait : After (.context true) .waitFetch
  | plain : After .plain (.returned none)
  | noCtx : After (.context false) (.returned none)

inductive Release.Step (o : Options) (i : ℕ) (s : PoolCore) : Release → PoolCore → Release → Prop
  | entryRefused {m p k} (h : s.state = .closed) :
      Step o i s ⟨m, p, k, .entryClosed⟩ s ⟨m, p, k, .returned (some .poolClosed)⟩
  | entryOpened {m p k} (h : s.state = .opened) :
      Step o i s ⟨m, p, k, .entryClosed⟩ s ⟨m, p, k, .entryPurge⟩
  | entryNoPurge {m p k} (hd : o.disablePurge = false) (h : s.stopPurge = none) :
      Step o i s ⟨m, p, k, .entryPurge⟩ s ⟨m, p, k, .returned (some .poolClosed)⟩
  | entryPurge {m p k} : Step o i s ⟨m, p, k, .entryPurge⟩ s ⟨m, p, k, .entryTicktock⟩
  | entryNoTicktock {m p k} (h : s.stopTicktock = none) :
      Step o i s ⟨m, p, k, .entryTicktock⟩ s ⟨m, p, k, .returned (some .poolClosed)⟩
  | entryTicktock {m p k} : Step o i s ⟨m, p, k, .entryTicktock⟩ s ⟨m, p, k, .copyPurgeCtx⟩
  | copyPurgeCtx {m p k} :
      Step o i s ⟨m, p, k, .copyPurgeCtx⟩ s ⟨m, s.purgeCtx, k, .copyTicktockCtx⟩
  | copyTicktockCtx {m p k} :
      Step o i s ⟨m, p, k, .copyTicktockCtx⟩ s ⟨m, p, s.ticktockCtx, .exchange⟩
  | exchangeFails {m p k pc} (h : s.state = .closed) (ha : After m pc) :
      Step o i s ⟨m, p, k, .exchange⟩ s ⟨m, p, k, pc⟩
  | exchange {m p k} (h : s.state = .opened) :
      Step o i s ⟨m, p, k, .exchange⟩
        { s with state := .closed,
                 past := { s.past with closer := some i, finished := [], drained := none } }
        ⟨m, p, k, .takePurge⟩
  | noPurge {m p k} (h : s.stopPurge = none) :
      Step o i s ⟨m, p, k, .takePurge⟩ s ⟨m, p, k, .takeTicktock⟩
  | takePurge {m p k e} (h : s.stopPurge = some e) :
      Step o i s ⟨m, p, k, .takePurge⟩ { s with stopPurge := none } ⟨m, p, k, .cancelPurge e⟩
  | cancelPurge {m p k e} :
      Step o i s ⟨m, p, k, .cancelPurge e⟩ (s.closeEvent e) ⟨m, p, k, .takeTicktock⟩
  | noTicktock {m p k} (h : s.stopTicktock = none) :
      Step o i s ⟨m, p, k, .takeTicktock⟩ s ⟨m, p, k, .reset⟩
  | takeTicktock {m p k e} (h : s.stopTicktock = some e) :
      Step o i s ⟨m, p, k, .takeTicktock⟩ { s with stopTicktock := none }
        ⟨m, p, k, .cancelTicktock e⟩
  | cancelTicktock {m p k e} :
      Step o i s ⟨m, p, k, .cancelTicktock e⟩ (s.closeEvent e) ⟨m, p, k, .reset⟩
  | reset {m p k} (hl : s.locked = false) :
      Step o i s ⟨m, p, k, .reset⟩ (Release.reset i s) ⟨m, p, k, .broadcast⟩
  | broadcast {m p k} :
      Step o i s ⟨m, p, k, .broadcast⟩ { s with cond := s.cond.broadcast } ⟨m, p, k, .checkRunning⟩
  | idle {m p k} (h : s.running = 0) :
      Step o i s ⟨m, p, k, .checkRunning⟩ s ⟨m, p, k, .latchFetch⟩
  | busy {m p k pc} (h : s.running ≠ 0) (ha : After m pc) :
      Step o i s ⟨m, p, k, .checkRunning⟩ s ⟨m, p, k, pc⟩
  | latchFetch {m p k} :
      Step o i s ⟨m, p, k, .latchFetch⟩ s ⟨m, p, k, .latchClose s.allDone⟩
  | latchClose {m p k e pc} (ha : After m pc) :
      Step o i s ⟨m, p, k, .latchClose e⟩ (s.closeEvent e) ⟨m, p, k, pc⟩
  | waitFetch {m p k} : Step o i s ⟨m, p, k, .waitFetch⟩ s ⟨m, p, k, .waitLatch s.allDone⟩
  | latchClosed {m p k e} (h : s.events e = true) :
      Step o i s ⟨m, p, k, .waitLatch e⟩ s ⟨m, p, k, .waitPurgeCtx e⟩
  | latchOpen {m p k e} (h : s.events e = false) :
      Step o i s ⟨m, p, k, .waitLatch e⟩ s ⟨m, p, k, .ctxErr e⟩
  | ctxDone {m p k e err} (he : err = .canceled ∨ err = .deadlineExceeded) :
      Step o i s ⟨m, p, k, .ctxErr e⟩ s ⟨m, p, k, .returned (some err)⟩
  | ctxLive {m p k e} : Step o i s ⟨m, p, k, .ctxErr e⟩ s ⟨m, p, k, .waitTimeout e⟩
  | waited {m p k e} (h : s.events e = true) :
      Step o i s ⟨m, p, k, .waitTimeout e⟩ s ⟨m, p, k, .waitPurgeCtx e⟩
  | timedOut {m p k e} (h : s.events e = false) :
      Step o i s ⟨m, p, k, .waitTimeout e⟩ s ⟨m, p, k, .waitLatch e⟩
  | waitPurgeCtx {m p k e}
      (h : o.disablePurge = false → ∀ c, p = some c → s.events c = true) :
      Step o i s ⟨m, p, k, .waitPurgeCtx e⟩ s ⟨m, p, k, .waitTicktockCtx e⟩
  | waitTicktockCtx {m p k e} (h : ∀ c, k = some c → s.events c = true) :
      Step o i s ⟨m, p, k, .waitTicktockCtx e⟩ s ⟨m, p, k, .testRunning e⟩
  | stillRunning {m p k e} (h : s.running ≠ 0) :
      Step o i s ⟨m, p, k, .testRunning e⟩ s ⟨m, p, k, .retry e⟩
  | quietPurge {m p k e} (h : s.running = 0) (hd : o.disablePurge = false) :
      Step o i s ⟨m, p, k, .testRunning e⟩ s ⟨m, p, k, .testPurgeDone e⟩
  | quietNoPurge {m p k e} (h : s.running = 0) (hd : o.disablePurge = true) :
      Step o i s ⟨m, p, k, .testRunning e⟩ s ⟨m, p, k, .testTicktockDone e⟩
  | purgeDone {m p k e} (h : s.purgeDone = true) :
      Step o i s ⟨m, p, k, .testPurgeDone e⟩ s ⟨m, p, k, .testTicktockDone e⟩
  | purgeAlive {m p k e} (h : s.purgeDone = false) :
      Step o i s ⟨m, p, k, .testPurgeDone e⟩ s ⟨m, p, k, .retry e⟩
  | ticktockDone {m p k e} (h : s.ticktockDone = true) :
      Step o i s ⟨m, p, k, .testTicktockDone e⟩ s ⟨m, p, k, .returned none⟩
  | ticktockAlive {m p k e} (h : s.ticktockDone = false) :
      Step o i s ⟨m, p, k, .testTicktockDone e⟩ s ⟨m, p, k, .retry e⟩
  | giveUp {m p k e err} (he : err = .canceled ∨ err = .deadlineExceeded) :
      Step o i s ⟨m, p, k, .retry e⟩ s ⟨m, p, k, .returned (some err)⟩
  | retry {m p k e} : Step o i s ⟨m, p, k, .retry e⟩ s ⟨m, p, k, .waitLatch e⟩

inductive Reboot.Step (o : Options) (s : PoolCore) : Reboot → PoolCore → Reboot → List Thread → Prop
  | opened (h : s.state = .opened) : Step o s .checkState s .returned []
  | closed (h : s.state = .closed) : Step o s .checkState s .latchFetch []
  | latchFetch : Step o s .latchFetch s (.latchWait s.allDone) []
  | latchWait {e} (h : s.events e = true) : Step o s (.latchWait e) s .waitPurge []
  | waitPurge (h : o.disablePurge = false → s.purgeDone = true) :
      Step o s .waitPurge s .waitTicktock []
  | waitTicktock (h : s.ticktockDone = true) : Step o s .waitTicktock s .exchange []
  | exchange (h : s.state = .closed) : Step o s .exchange { s with state := .opened } .clearPurge []
  | exchangeFails (h : s.state = .opened) : Step o s .exchange s .returned []
  | clearPurge (hd : o.disablePurge = false) :
      Step o s .clearPurge { s with purgeDone := false } .purgeCtx []
  | clearNoPurge (hd : o.disablePurge = true) :
      Step o s .clearPurge { s with purgeDone := false } .clearTicktock []
  | purgeCtx : Step o s .purgeCtx s.goPurgeCtx.2 (.purgeStop s.eventCount) []
  | purgeStop {c} : Step o s (.purgeStop c) { s with stopPurge := some c } .purgeSpawn []
  | purgeSpawn : Step o s .purgeSpawn s .clearTicktock [.purge .start]
  | clearTicktock : Step o s .clearTicktock { s with ticktockDone := false } .ticktockNow []
  | ticktockNow : Step o s .ticktockNow { s with now := s.clock } .ticktockCtx []
  | ticktockCtx : Step o s .ticktockCtx s.goTicktockCtx.2 (.ticktockStop s.eventCount) []
  | ticktockStop {c} :
      Step o s (.ticktockStop c) { s with stopTicktock := some c } .ticktockSpawn []
  | ticktockSpawn : Step o s .ticktockSpawn s .replaceLatch [.ticktock .start]
  | replaceLatch :
      Step o s .replaceLatch { (s.newEvent.2) with allDone := s.eventCount } .returned []

inductive Tune.Step (o : Options) (s : PoolCore) : Tune → PoolCore → Tune → Prop
  | ignored {size} : Step o s (.readCap size) s .returned
  | readCap {size} (hu : s.capacity ≠ -1) (hs : 0 < size) (hne : size ≠ s.capacity)
      (hp : o.preAlloc = false) : Step o s (.readCap size) s (.store size s.capacity)
  | shrink {size c} (h : size ≤ c) :
      Step o s (.store size c)
        { s with capacity := size, past := { s.past with capacities := size :: s.past.capacities } }
        .returned
  | growOne {size c} (h : size = c + 1) :
      Step o s (.store size c)
        { s with capacity := size, past := { s.past with capacities := size :: s.past.capacities } }
        .signal
  | grow {size c} (h : c + 1 < size) :
      Step o s (.store size c)
        { s with capacity := size, past := { s.past with capacities := size :: s.past.capacities } }
        .broadcast
  | signal : Step o s .signal { s with cond := s.cond.signal } .returned
  | broadcast : Step o s .broadcast { s with cond := s.cond.broadcast } .returned

inductive Thread.Step (o : Options) (i : ℕ) (s : PoolCore) :
    Thread → PoolCore → Thread → List Thread → Prop
  | submit {t s' t' new} : Submit.Step o s t s' t' new → Step o i s (.submit t) s' (.submit t') new
  | work {t s' t'} : Work.Step s t s' t' → Step o i s (.work t) s' (.work t') []
  | purge {t s' t'} : Purge.Step o s t s' t' → Step o i s (.purge t) s' (.purge t') []
  | ticktock {t s' t'} : Ticktock.Step s t s' t' → Step o i s (.ticktock t) s' (.ticktock t') []
  | release {t s' t'} : Release.Step o i s t s' t' → Step o i s (.release t) s' (.release t') []
  | reboot {t s' t' new} : Reboot.Step o s t s' t' new → Step o i s (.reboot t) s' (.reboot t') new
  | tune {t s' t'} : Tune.Step o s t s' t' → Step o i s (.tune t) s' (.tune t') []
  | clock {now} : Step o i s .clock { s with clock := now } .clock []

namespace PoolCore

theorem isClosed_iff (s : PoolCore) : s.isClosed = true ↔ s.state = .closed := by
  simp [isClosed]

theorem isClosed_false_iff (s : PoolCore) : ¬ s.isClosed = true ↔ s.state = .opened := by
  cases h : s.state <;> simp [isClosed, h]

/-- Finishing workers fills their channels and is recorded; nothing else moves. -/
theorem finishAll_frame (s : PoolCore) (ws : List ℕ) :
    ∃ g f, s.finishAll ws = { s with goWorkers := g, past := { s.past with finished := f } } := by
  induction ws generalizing s with
  | nil => exact ⟨_, _, rfl⟩
  | cons w ws ih => exact ih (s.finish w)

end PoolCore

/-- What a reset leaves alone. -/
theorem Release.reset_frame (i : ℕ) (s : PoolCore) :
    ∃ g p, Release.reset i s = { s with workers := s.workers.reset.2, goWorkers := g, past := p } ∧
      p.capacities = s.past.capacities ∧ p.closer = s.past.closer ∧
      p.received = s.past.received := by
  obtain ⟨g, f, hf⟩ :=
    PoolCore.finishAll_frame { s with workers := s.workers.reset.2 } s.workers.reset.1
  simp only [reset, IdleQueue.reset_eq, hf]
  exact ⟨_, _, rfl, rfl, rfl, rfl⟩

/-- The step of a call, once for all proofs. -/
theorem Submit.next_step {o : Options} {s : PoolCore} {t : Submit}
    {r : PoolCore × Submit × List Thread} (h : t.next o s = some r) :
    Submit.Step o s t r.1 r.2.1 r.2.2 := by
  obtain ⟨p, b, pc⟩ := t
  cases pc with
  | checkClosed =>
      simp only [next, Option.some.injEq] at h
      subst h
      split_ifs with hc
      · exact .closed (s.isClosed_iff.mp hc)
      · exact .opened (s.isClosed_false_iff.mp hc)
  | lock =>
      simp only [next] at h
      split_ifs at h with hl
      cases h
      have hl : s.locked = false := by simpa using hl
      rcases hd : s.workers.detach with ⟨_ | w, q⟩
      · simpa only [detach, IdleQueue.detach_eq, hd] using Step.detachNone hl hd
      · simpa only [detach, IdleQueue.detach_eq, hd, ← hl] using Step.detachSome hl hd
  | readCap =>
      simp only [next, Option.some.injEq] at h
      subst h
      split_ifs with hc
      · exact .unlimited hc
      · exact .bounded hc
  | readRunning c =>
      simp only [next] at h
      split_ifs at h with hr ho
      · cases h
        exact .room hr
      · cases h
        exact .overload (by omega) ho
      · cases h
        exact .enlist (by omega) (by simpa using ho)
  | spawn =>
      cases h
      cases hc : s.workerCache with
      | nil => simpa only [PoolCore.fetchCachedWorker, hc] using Step.spawnNew hc
      | cons w rest => simpa only [PoolCore.fetchCachedWorker, hc] using Step.spawnCached hc
  | run w =>
      cases h
      exact .run
  | park =>
      cases h
      cases hp : s.cond.register.poll s.cond.generation with
      | none =>
          have ht : s.cond.tokens = 0 := (Cond.poll_none hp).1
          simpa only [park, Cond.register_generation, hp] using Step.parkBlocks ht
      | some c => simpa only [park, Cond.register_generation, hp] using Step.parkLeaves hp
  | parked g =>
      obtain ⟨c, hp, rfl⟩ := Option.map_eq_some_iff.mp h
      exact .leave hp
  | woken =>
      simp only [next] at h
      split_ifs at h with hl
      cases h
      exact .woken (by simpa using hl)
  | recheck =>
      simp only [next] at h
      split_ifs at h with hc
      · cases h
        exact .recheckClosed (s.isClosed_iff.mp hc)
      · cases h
        have ho := s.isClosed_false_iff.mp hc
        rcases hd : s.workers.detach with ⟨_ | w, q⟩
        · simpa only [detach, IdleQueue.detach_eq, hd] using Step.recheckNone ho hd
        · simpa only [detach, IdleQueue.detach_eq, hd] using Step.recheckSome ho hd
  | input w =>
      cases h
      exact .input
  | ok w => cases h
  | err e => cases h

theorem Work.next_step {s : PoolCore} {t : Work} {env : Env} {r : PoolCore × Work}
    (h : t.next s env = some r) : Work.Step s t r.1 r.2 := by
  obtain ⟨w, b, pc⟩ := t
  cases pc with
  | recv =>
      simp only [next, recv] at h
      split at h
      · cases h
      · rename_i m rest hc
        cases m with
        | payload p =>
            cases h
            exact .recvPayload hc
        | finish =>
            cases h
            exact .recvFinish hc
  | call p =>
      simp only [next] at h
      split_ifs at h with hs he
      · cases h
        exact .stop hs
      · cases h
        exact .completed (by simpa using hs)
      · cases h
        exact .panicked (by simpa using hs)
  | revertCap =>
      simp only [next, Option.some.injEq] at h
      subst h
      split_ifs with hc
      · exact .bounded hc
      · exact .unlimited (by omega)
  | revertRunning c =>
      simp only [next, Option.some.injEq] at h
      subst h
      split_ifs with hc
      · exact .over hc
      · exact .within (by omega)
  | revertClosed =>
      simp only [next, Option.some.injEq] at h
      subst h
      split_ifs with hc
      · exact .closed (s.isClosed_iff.mp hc)
      · exact .opened (s.isClosed_false_iff.mp hc)
  | refuse =>
      cases h
      exact .refuse
  | stamp =>
      cases h
      exact .stamp
  | revertLock =>
      simp only [next] at h
      split_ifs at h with hl hc
      · cases h
        exact .lockClosed (by simpa using hl) (s.isClosed_iff.mp hc)
      · cases h
        exact .lockOpened (by simpa using hl) (s.isClosed_false_iff.mp hc)
  | insert =>
      cases h
      cases hi : s.workers.insert w with
      | ok q => simpa only [insert, IdleQueue.insert_eq, hi] using Step.insertOk hi
      | error e => simpa only [insert, IdleQueue.insert_eq, hi] using Step.insertFull hi
  | exit =>
      simp only [next, Option.some.injEq] at h
      subst h
      split_ifs with hc
      · exact .exitLast (by omega)
      · exact .exitMore (by omega)
  | exitClosed =>
      simp only [next, Option.some.injEq] at h
      subst h
      split_ifs with hc
      · exact .lastClosed (s.isClosed_iff.mp hc)
      · exact .lastOpened (s.isClosed_false_iff.mp hc)
  | latchFetch =>
      cases h
      exact .latchFetch
  | latchClose e =>
      cases h
      exact .latchClose
  | recycle =>
      cases h
      cases b with
      | true => exact .recycleReport
      | false => exact .recycleSignal
  | report =>
      simp only [next, Option.some.injEq] at h
      subst h
      split_ifs
      · exact .reported
      · exact .reportPanics
  | signal =>
      cases h
      exact .signal
  | returned => cases h
  | unwound => cases h

theorem Purge.next_step {o : Options} {s : PoolCore} {t : Purge} {r : PoolCore × Purge}
    (h : t.next o s = some r) : Purge.Step o s t r.1 r.2 := by
  cases t with
  | start =>
      simp only [next] at h
      split at h
      · cases h
        exact .noCtx ‹_›
      · cases h
        exact .ctx ‹_›
  | tick c =>
      simp only [next, Option.some.injEq] at h
      subst h
      split_ifs with hc
      · exact .cancelled hc
      · exact .tick (by simpa using hc)
  | checkClosed c =>
      simp only [next, Option.some.injEq] at h
      subst h
      split_ifs with hc
      · exact .closed (s.isClosed_iff.mp hc)
      · exact .opened (s.isClosed_false_iff.mp hc)
  | refresh c =>
      simp only [next, IdleQueue.refresh_eq] at h
      split_ifs at h with hl
      have hl : s.locked = false := by simpa using hl
      split at h
      · rename_i hr
        cases h
        exact .overflow hl hr
      · rename_i r hr
        cases h
        exact .refresh hl (WorkerQueue.refresh_of_checked hr) rfl
  | finish c stale b =>
      cases stale with
      | nil =>
          simp only [next, Option.some.injEq] at h
          subst h
          split_ifs with hd
          · exact .dormant hd.1 hd.2
          · exact .busy fun hb => by
              have := not_and.mp hd hb
              omega
      | cons w stale =>
          cases h
          exact .finish
  | broadcast c =>
      cases h
      exact .broadcast
  | done =>
      cases h
      exact .done
  | returned => cases h
  | panicked => cases h

theorem Ticktock.next_step {s : PoolCore} {t : Ticktock} {r : PoolCore × Ticktock}
    (h : t.next s = some r) : Ticktock.Step s t r.1 r.2 := by
  cases t with
  | start =>
      simp only [next] at h
      split at h
      · cases h
        exact .noCtx ‹_›
      · cases h
        exact .ctx ‹_›
  | tick c =>
      simp only [next, Option.some.injEq] at h
      subst h
      split_ifs with hc
      · exact .cancelled hc
      · exact .tick (by simpa using hc)
  | checkClosed c =>
      simp only [next, Option.some.injEq] at h
      subst h
      split_ifs with hc
      · exact .closed (s.isClosed_iff.mp hc)
      · exact .opened (s.isClosed_false_iff.mp hc)
  | store c =>
      cases h
      exact .store
  | done =>
      cases h
      exact .done
  | returned => cases h

theorem Release.after_spec (t : Release) :
    ∃ pc, Release.After t.mode pc ∧ t.afterRelease = { t with pc := pc } := by
  obtain ⟨m, p, k, pc⟩ := t
  rcases m with _ | (_ | _)
  · exact ⟨_, .plain, rfl⟩
  · exact ⟨_, .noCtx, rfl⟩
  · exact ⟨_, .wait, rfl⟩

theorem Release.live_spec (t : Release) (env : Env) (pc : ReleasePc) :
    t.live env pc = { t with pc := pc } ∨
      ∃ e, (e = .canceled ∨ e = .deadlineExceeded) ∧
        t.live env pc = { t with pc := .returned (some e) } := by
  cases env with
  | ok => exact .inl rfl
  | fault => exact .inr ⟨_, .inl rfl, rfl⟩
  | deadline => exact .inr ⟨_, .inr rfl, rfl⟩
  | time now => exact .inl rfl

theorem Release.next_step {o : Options} {i : ℕ} {s : PoolCore} {t : Release} {env : Env}
    {r : PoolCore × Release} (h : t.next o i s env = some r) : Release.Step o i s t r.1 r.2 := by
  obtain ⟨m, p, k, pc⟩ := t
  obtain ⟨apc, ha, hafter⟩ := Release.after_spec ⟨m, p, k, pc⟩
  cases pc with
  | entryClosed =>
      simp only [next, Option.some.injEq] at h
      subst h
      split_ifs with hc
      · exact .entryRefused (s.isClosed_iff.mp hc)
      · exact .entryOpened (s.isClosed_false_iff.mp hc)
  | entryPurge =>
      simp only [next, Option.some.injEq] at h
      subst h
      split_ifs with hc
      · exact .entryNoPurge (by simpa using hc.1) hc.2
      · exact .entryPurge
  | entryTicktock =>
      simp only [next, Option.some.injEq] at h
      subst h
      split_ifs with hc
      · exact .entryNoTicktock hc
      · exact .entryTicktock
  | copyPurgeCtx =>
      cases h
      exact .copyPurgeCtx
  | copyTicktockCtx =>
      cases h
      exact .copyTicktockCtx
  | exchange =>
      simp only [next] at h
      split_ifs at h with hc
      · cases h
        rw [hafter]
        exact .exchangeFails (s.isClosed_iff.mp hc) ha
      · cases h
        exact .exchange (s.isClosed_false_iff.mp hc)
  | takePurge =>
      simp only [next] at h
      split at h
      · cases h
        exact .noPurge ‹_›
      · cases h
        exact .takePurge ‹_›
  | cancelPurge e =>
      cases h
      exact .cancelPurge
  | takeTicktock =>
      simp only [next] at h
      split at h
      · cases h
        exact .noTicktock ‹_›
      · cases h
        exact .takeTicktock ‹_›
  | cancelTicktock e =>
      cases h
      exact .cancelTicktock
  | reset =>
      simp only [next] at h
      split_ifs at h with hl
      cases h
      exact .reset (by simpa using hl)
  | broadcast =>
      cases h
      exact .broadcast
  | checkRunning =>
      simp only [next, Option.some.injEq] at h
      subst h
      split_ifs with hc
      · exact .idle hc
      · rw [hafter]
        exact .busy hc ha
  | latchFetch =>
      cases h
      exact .latchFetch
  | latchClose e =>
      cases h
      rw [hafter]
      exact .latchClose ha
  | waitFetch =>
      cases h
      exact .waitFetch
  | waitLatch e =>
      simp only [next, Option.some.injEq] at h
      subst h
      split_ifs with hc
      · exact .latchClosed hc
      · exact .latchOpen (by simpa using hc)
  | ctxErr e =>
      cases h
      rcases Release.live_spec ⟨m, p, k, .ctxErr e⟩ env (.waitTimeout e) with hl | ⟨err, he, hl⟩
      · rw [hl]
        exact .ctxLive
      · rw [hl]
        exact .ctxDone he
  | waitTimeout e =>
      simp only [next, Option.some.injEq] at h
      subst h
      split_ifs with hc
      · exact .waited hc
      · exact .timedOut (by simpa using hc)
  | waitPurgeCtx e =>
      simp only [next] at h
      split_ifs at h with hd
      · cases h
        exact .waitPurgeCtx fun hf => absurd hd (by simp [hf])
      · split at h
        · cases h
          exact .waitPurgeCtx fun _ _ hp => by simp_all
        · split_ifs at h with he
          cases h
          exact .waitPurgeCtx fun _ _ hp => by simp_all
  | waitTicktockCtx e =>
      simp only [next] at h
      split at h
      · cases h
        exact .waitTicktockCtx fun _ hp => by simp_all
      · split_ifs at h with he
        cases h
        exact .waitTicktockCtx fun _ hp => by simp_all
  | testRunning e =>
      simp only [next, Option.some.injEq] at h
      subst h
      split_ifs with hr hd
      · exact .quietNoPurge hr hd
      · exact .quietPurge hr (by simpa using hd)
      · exact .stillRunning hr
  | testPurgeDone e =>
      simp only [next, Option.some.injEq] at h
      subst h
      split_ifs with hc
      · exact .purgeDone hc
      · exact .purgeAlive (by simpa using hc)
  | testTicktockDone e =>
      simp only [next, Option.some.injEq] at h
      subst h
      split_ifs with hc
      · exact .ticktockDone hc
      · exact .ticktockAlive (by simpa using hc)
  | retry e =>
      cases h
      rcases Release.live_spec ⟨m, p, k, .retry e⟩ env (.waitLatch e) with hl | ⟨err, he, hl⟩
      · rw [hl]
        exact .retry
      · rw [hl]
        exact .giveUp he
  | returned e => cases h

theorem Reboot.next_step {o : Options} {s : PoolCore} {t : Reboot}
    {r : PoolCore × Reboot × List Thread} (h : t.next o s = some r) :
    Reboot.Step o s t r.1 r.2.1 r.2.2 := by
  cases t with
  | checkState =>
      simp only [next, Option.some.injEq] at h
      subst h
      split_ifs with hc
      · exact .closed (s.isClosed_iff.mp hc)
      · exact .opened (s.isClosed_false_iff.mp hc)
  | latchFetch =>
      cases h
      exact .latchFetch
  | latchWait e =>
      simp only [next] at h
      split_ifs at h with hc
      cases h
      exact .latchWait hc
  | waitPurge =>
      simp only [next] at h
      split_ifs at h with hc
      cases h
      exact .waitPurge fun hd => hc.resolve_left (by simp [hd])
  | waitTicktock =>
      simp only [next] at h
      split_ifs at h with hc
      cases h
      exact .waitTicktock hc
  | exchange =>
      simp only [next] at h
      split_ifs at h with hc
      · cases h
        exact .exchange (s.isClosed_iff.mp hc)
      · cases h
        exact .exchangeFails (s.isClosed_false_iff.mp hc)
  | clearPurge =>
      simp only [next, Option.some.injEq] at h
      subst h
      split_ifs with hd
      · exact .clearNoPurge hd
      · exact .clearPurge (by simpa using hd)
  | purgeCtx =>
      cases h
      exact .purgeCtx
  | purgeStop c =>
      cases h
      exact .purgeStop
  | purgeSpawn =>
      cases h
      exact .purgeSpawn
  | clearTicktock =>
      cases h
      exact .clearTicktock
  | ticktockNow =>
      cases h
      exact .ticktockNow
  | ticktockCtx =>
      cases h
      exact .ticktockCtx
  | ticktockStop c =>
      cases h
      exact .ticktockStop
  | ticktockSpawn =>
      cases h
      exact .ticktockSpawn
  | replaceLatch =>
      cases h
      exact .replaceLatch
  | returned => cases h

theorem Tune.next_step {o : Options} {s : PoolCore} {t : Tune} {r : PoolCore × Tune}
    (h : t.next o s = some r) : Tune.Step o s t r.1 r.2 := by
  cases t with
  | readCap size =>
      simp only [next] at h
      split_ifs at h with hc
      · cases h
        exact .ignored
      · cases h
        simp only [not_or, not_le, Bool.not_eq_true] at hc
        exact .readCap hc.1 hc.2.1 hc.2.2.1 hc.2.2.2
  | store size c =>
      simp only [next, Option.some.injEq] at h
      subst h
      split_ifs with hg ho
      · exact .growOne (by omega)
      · exact .grow (by omega)
      · exact .shrink (by omega)
  | signal =>
      cases h
      exact .signal
  | broadcast =>
      cases h
      exact .broadcast
  | returned => cases h

theorem program_step {o : Options} {s : PoolCore} {i : ℕ} {t : Thread} {env : Env}
    {r : PoolCore × Thread × List Thread} (h : (program o).next s i t env = some r) :
    Thread.Step o i s t r.1 r.2.1 r.2.2 := by
  cases t with
  | submit t =>
      obtain ⟨r, hr, rfl⟩ := Option.map_eq_some_iff.mp h
      exact .submit (Submit.next_step hr)
  | work t =>
      obtain ⟨r, hr, rfl⟩ := Option.map_eq_some_iff.mp h
      exact .work (Work.next_step hr)
  | purge t =>
      obtain ⟨r, hr, rfl⟩ := Option.map_eq_some_iff.mp h
      exact .purge (Purge.next_step hr)
  | ticktock t =>
      obtain ⟨r, hr, rfl⟩ := Option.map_eq_some_iff.mp h
      exact .ticktock (Ticktock.next_step hr)
  | release t =>
      obtain ⟨r, hr, rfl⟩ := Option.map_eq_some_iff.mp h
      exact .release (Release.next_step hr)
  | reboot t =>
      obtain ⟨r, hr, rfl⟩ := Option.map_eq_some_iff.mp h
      exact .reboot (Reboot.next_step hr)
  | tune t =>
      obtain ⟨r, hr, rfl⟩ := Option.map_eq_some_iff.mp h
      exact .tune (Tune.next_step hr)
  | clock =>
      cases env with
      | time now =>
          cases h
          exact .clock
      | ok => cases h
      | fault => cases h
      | deadline => cases h

/-- The threads that a step starts have not run yet. -/
theorem Thread.Step.new_cases {o : Options} {i : ℕ} {s s' : PoolCore} {t t' u : Thread}
    {new : List Thread} (h : Thread.Step o i s t s' t' new) (hu : u ∈ new) :
    (∃ w, u = .work ⟨w, false, .recv⟩) ∨ u = .purge .start ∨ u = .ticktock .start := by
  cases h with
  | submit h =>
      cases h with
      | run => exact .inl ⟨_, List.mem_singleton.mp hu⟩
      | _ => cases hu
  | reboot h =>
      cases h with
      | purgeSpawn => exact .inr (.inl (List.mem_singleton.mp hu))
      | ticktockSpawn => exact .inr (.inr (List.mem_singleton.mp hu))
      | _ => cases hu
  | _ => cases hu

/-- What a step does to the idle queue. -/
theorem Thread.Step.workers_cases {o : Options} {i : ℕ} {s s' : PoolCore} {t t' : Thread}
    {new : List Thread} (h : Thread.Step o i s t s' t' new) :
    s'.workers = s.workers ∨ s'.workers = s.workers.detach.2 ∨
      (∃ w b, t = .work ⟨w, b, .insert⟩ ∧ s.workers.insert w = .ok s'.workers) ∨
      s'.workers = (s.workers.refresh s.stamp s.clock o.expiryDuration).2 ∨
      s'.workers = s.workers.reset.2 := by
  cases h with
  | submit h =>
      cases h with
      | detachSome _ hd | detachNone _ hd | recheckSome _ hd | recheckNone _ hd =>
          exact .inr (.inl (congrArg Prod.snd hd).symm)
      | _ => exact .inl rfl
  | work h =>
      cases h with
      | insertOk hi => exact .inr (.inr (.inl ⟨_, _, rfl, hi⟩))
      | _ => exact .inl rfl
  | purge h =>
      cases h with
      | refresh _ hr => exact .inr (.inr (.inr (.inl (congrArg Prod.snd hr).symm)))
      | _ => exact .inl rfl
  | release h =>
      cases h with
      | reset =>
          obtain ⟨_, _, hr, _⟩ := Release.reset_frame i s
          refine .inr (.inr (.inr (.inr ?_)))
          rw [hr]
      | _ => exact .inl rfl
  | ticktock h => cases h <;> exact .inl rfl
  | reboot h => cases h <;> exact .inl rfl
  | tune h => cases h <;> exact .inl rfl
  | clock => exact .inl rfl

end AntsPool
