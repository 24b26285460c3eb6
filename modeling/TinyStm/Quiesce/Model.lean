import TinyStm.Conc.Pool
import TinyStm.Conc.Zoom
import TinyStm.Gc.Model
import TinyStm.Model.Types

/-!
# Quiescence, irrevocability and clock rollover

The functions of `src/stm_internal.h` and `src/stm.c` by which threads wait for each other:
`stm_quiesce_*`, `stm_check_quiesce`, `rollover_clock`, and how a thread registers, starts, aborts and
commits a transaction, and makes it irrevocable. The words that transactions access, their read and
write sets and their locks are left out: whether a load, a store, a validation or a commit fails is an
argument of the call. The callbacks are left out too, but for an abort handler that requests
irrevocability and the blocks that a commit frees; nested starts and commits only count.

What a thread does between taking and releasing `quiesce_mutex` is seen by no thread that takes the mutex,
so the accesses to what it protects are grouped; a condition variable is the list of the threads that
wait for it.
-/

namespace TinyStm.Quiesce

/-- The build options: `VERSION_MAX`, and the constants of the collector with `EPOCH_GC`. -/
structure Config where
  versionMax : ℕ
  gc : Option GcConfig

/-- The memory that is given to the collector. -/
inductive Block (Tid Addr : Type)
  | readSet (p : Tid)
  | writeSet (p : Tid)
  | descriptor (p : Tid)
  | user (a : Addr)
  deriving DecidableEq

/-- Auxiliary: where a thread is. It is preparing until it has got past `stm_check_quiesce`, and spinning
while it waits for the token. -/
inductive Point
  | outside
  | preparing
  | spinning
  | running
  | aborting
  | releasing
  deriving DecidableEq

/-- `stm_tx_t`: `mode` and `serial` are the bits 0x07 and 0x08 of `irrevocable`; the latter is only set
with the former. Auxiliary are `point`, whether the thread is inside a function of the collector, and
the epoch at which it frees memory. -/
structure Tx where
  status : Status
  mode : ℕ
  serial : Bool
  noRetry : Bool
  start : ℕ
  point : Point
  inGc : Bool
  freeing : Option ℕ
  deriving DecidableEq

/-- `_tinystm`, the descriptors, and the collector, whose clock is `CLOCK`. The list `threads` has the
head first, and `threads_nb` is an integer: fewer than 2^64 threads are created.

Auxiliary are: the transaction that has been granted serial irrevocability, the thread that rolls the
clock over, the threads inside `stm_quiesce_barrier`, and those that have a slot of the collector and are
not registered; and the timestamps that the clock has given (`stamps`).

The head-room of the clock is accounted for by the threads that have found the clock below `VERSION_MAX` in
`int_stm_prepare` and have not incremented it since (`checked`), the number of the threads that were
registered when the clock got to `VERSION_MAX` (`crew`), those of them that have not incremented it since
(`spare`), and the number of the other increments beyond `VERSION_MAX` on the paths that do not rest upon a
check (`overdraws`).

The flags record that: a thread got past `stm_check_quiesce` while a transaction quiesced (`overtaken`); a
transaction was given up with the token, or forgot it (`leaked`), or returned a token that it did not hold
(`misreleased`); a thread entered the barrier with the token (`halted`), or without being registered
(`uncounted`); a release of the quiescence left threads asleep (`stranded`); the clock was rolled over beside
an unregistered thread with a slot (`exposed`); and the assertion of `gc_free` failed (`failed`). -/
structure State (Tid Addr : Type) where
  quiesce : ℕ
  mutex : Option Tid
  threads : List Tid
  threadsNb : ℤ
  sleepers : List Tid
  irrevocable : ℕ
  txs : Tid → Tx
  gc : GcState Tid (Block Tid Addr)
  granted : Option Tid
  rolling : Option Tid
  barrier : List Tid
  window : List Tid
  stamps : List ℕ
  checked : Tid → Bool
  crew : ℕ
  spare : List Tid
  overdraws : ℕ
  overtaken : Bool
  leaked : Bool
  misreleased : Bool
  halted : Bool
  uncounted : Bool
  stranded : Bool
  exposed : Bool
  failed : Bool

/-- Programs on this state. -/
abbrev QProg (Tid Addr : Type) := Prog (State Tid Addr)

variable {Tid Addr : Type} [DecidableEq Tid]

/-- The descriptor of `p` is changed by `f`. -/
def State.setTx (s : State Tid Addr) (p : Tid) (f : Tx → Tx) : State Tid Addr :=
  { s with txs := Function.update s.txs p (f (s.txs p)) }

/-- A thread reads its own descriptor. -/
def getTx (p : Tid) : QProg Tid Addr Tx := .read (·.txs p)

/-- A thread changes its own descriptor. -/
def modifyTx (p : Tid) (f : Tx → Tx) : QProg Tid Addr Unit := .modify (·.setTx p f)

/-! ## The mutex and the condition variable -/

/-- `pthread_mutex_trylock(&_tinystm.quiesce_mutex)`. -/
def tryLockMutex (p : Tid) : QProg Tid Addr Bool :=
  .atomic fun s => if s.mutex = none then (true, { s with mutex := some p }) else (false, s)

/-- `pthread_mutex_lock(&_tinystm.quiesce_mutex)`. -/
def lockMutex (p : Tid) : QProg Tid Addr Unit :=
  .iterate () fun _ => do
    let ok ← tryLockMutex p
    pure (if ok then .inr () else .inl ())

/-- `pthread_mutex_unlock(&_tinystm.quiesce_mutex)`. -/
def unlockMutex : QProg Tid Addr Unit := .modify fun s => { s with mutex := none }

/-- One of the threads that sleep is woken up, if there is one. -/
def wake (pick : ℕ) (sleepers : List Tid) : List Tid := sleepers.eraseIdx (pick % sleepers.length)

/-- `pthread_cond_wait(&_tinystm.quiesce_cond, &_tinystm.quiesce_mutex)`. -/
def condWait (p : Tid) : QProg Tid Addr Unit := do
  .modify fun s => { s with sleepers := p :: s.sleepers, mutex := none }
  .iterate () fun _ => do
    let asleep ← .read fun s => decide (p ∈ s.sleepers)
    pure (if asleep then .inl () else .inr ())
  lockMutex p

/-! ## The collector -/

/-- A function of the collector is run. -/
def callGc (cfg : Config) (c : GcConfig → GcProg Tid (Block Tid Addr) Unit) : QProg Tid Addr Unit :=
  match cfg.gc with
  | none => pure ()
  | some g => (c g).zoom (·.gc) fun g s => { s with gc := g }

/-- A thread is inside a function of the collector. -/
def insideGc (cfg : Config) (p : Tid) (c : GcConfig → GcProg Tid (Block Tid Addr) Unit) :
    QProg Tid Addr Unit := do
  modifyTx p fun tx => { tx with inGc := true }
  callGc cfg c
  modifyTx p fun tx => { tx with inGc := false }

/-- The epoch at which a thread frees memory. -/
def freeEpoch (p : Tid) : QProg Tid Addr ℕ :=
  .atomic fun s => (s.gc.clock, s.setTx p fun tx => { tx with freeing := some s.gc.clock })

/-- `gc_free(b, e)`. -/
def freeAt (cfg : Config) (p : Tid) (e : ℕ) (b : Block Tid Addr) : QProg Tid Addr Unit := do
  .modify fun s => { s with
    failed := s.failed || (s.gc.slots (s.gc.idx p)).tailTs.any fun ts => decide (e < ts) }
  insideGc cfg p fun g => gcFree g p b e

/-- `gc_free(b, GET_CLOCK)` for each block. -/
def freeNow (cfg : Config) (p : Tid) : List (Block Tid Addr) → QProg Tid Addr Unit
  | [] => pure ()
  | b :: bs => do
    let e ← freeEpoch p
    freeAt cfg p e b
    modifyTx p fun tx => { tx with freeing := none }
    freeNow cfg p bs

/-! ## Quiescence -/

/-- `stm_quiesce_enter_thread`. -/
def stmQuiesceEnterThread (p : Tid) : QProg Tid Addr Unit := do
  lockMutex p
  .modify fun s => { s with
    threads := p :: s.threads, threadsNb := s.threadsNb + 1, window := s.window.filter (· ≠ p) }
  unlockMutex

/-- `stm_quiesce_exit_thread`: if the barrier is in use, thread `pick` of the sleepers is signalled. -/
def stmQuiesceExitThread (p : Tid) (pick : ℕ) : QProg Tid Addr Unit := do
  lockMutex p
  .modify fun s => { s with
    threads := s.threads.erase p, threadsNb := s.threadsNb - 1, window := p :: s.window
    sleepers := if s.quiesce ≠ 0 then wake pick s.sleepers else s.sleepers
    checked := Function.update s.checked p false }
  unlockMutex

/-- `rollover_clock`. -/
def rolloverClock (cfg : Config) (p : Tid) : QProg Tid Addr Unit := do
  .modify fun s => { s with
    gc := { s.gc with clock := 0 }, rolling := some p, exposed := s.exposed || s.window ≠ []
    crew := 0, spare := [], overdraws := 0 }
  callGc cfg gcReset

/-- `stm_quiesce_barrier`, with `rollover_clock`. -/
def stmQuiesceBarrier (cfg : Config) (p : Tid) : QProg Tid Addr Unit := do
  lockMutex p
  .modify fun s => { s with
    threadsNb := s.threadsNb - 1, quiesce := if s.quiesce = 0 then 1 else s.quiesce
    barrier := p :: s.barrier, halted := s.halted || decide ((s.txs p).mode ≥ 2)
    uncounted := s.uncounted || decide (p ∉ s.threads) }
  .iterate () fun _ => do
    let (quiesce, threadsNb) ← .read fun s => (s.quiesce, s.threadsNb)
    if quiesce = 0 then pure (.inr ())
    else if threadsNb = 0 then do
      rolloverClock cfg p
      -- release the transactional threads
      .modify fun s => { s with quiesce := 0, sleepers := [], rolling := none }
      pure (.inl ())
    else do
      condWait p
      pure (.inl ())
  .modify fun s => { s with threadsNb := s.threadsNb + 1, barrier := s.barrier.erase p }
  unlockMutex

/-- The other threads are waited for, one after the other. -/
def waitInactive (p : Tid) : List Tid → QProg Tid Addr Unit
  | [] => pure ()
  | t :: ts =>
    if t = p then waitInactive p ts
    else do
      .iterate () fun _ => do
        let active ← .read fun s => (s.txs t).status.isActive
        pure (if active then .inl () else .inr ())
      waitInactive p ts

/-- The mutex is taken: an active transaction does not wait for it. -/
def ownMutex (p : Tid) (active : Bool) : QProg Tid Addr Bool :=
  if active then tryLockMutex p
  else do
    lockMutex p
    pure true

/-- `stm_quiesce(tx, 1)`: false if another thread is quiescing. -/
def stmQuiesce (p : Tid) : QProg Tid Addr Bool := do
  let tx ← getTx p
  let ok ← ownMutex p tx.status.isActive
  if ok then do
    .modify fun s => { s with quiesce := 2 }
    let threads ← .read (·.threads)
    waitInactive p threads
    pure true
  else pure false

/-- `stm_check_quiesce`. -/
def stmCheckQuiesce (p : Tid) : QProg Tid Addr Unit := do
  let quiesce ← .atomic fun s => (s.quiesce,
    if s.quiesce = 2 then s else s.setTx p fun tx => { tx with point := .running })
  if quiesce = 2 then do
    let tx ← getTx p
    if tx.serial then modifyTx p fun tx => { tx with point := .running }
    else do
      modifyTx p fun tx => { tx with status := .idle }
      .iterate () fun _ => do
        let quiesce ← .read (·.quiesce)
        pure (if quiesce = 2 then .inl () else .inr ())
      .modify fun s =>
        { s.setTx p (fun tx' => { tx' with status := tx.status, point := .running }) with
          overtaken := s.overtaken || decide (s.quiesce = 2) }
  else pure ()

/-- `stm_quiesce_release`. -/
def stmQuiesceRelease : QProg Tid Addr Unit := do
  .modify fun s => { s with
    quiesce := 0, granted := none, stranded := s.stranded || decide (s.sleepers ≠ []) }
  unlockMutex

/-! ## Transactions -/

/-- The token is taken, and the descriptor remembers it. -/
def casToken (p : Tid) : QProg Tid Addr Bool :=
  .atomic fun s =>
    if s.irrevocable = 0 then
      (true, { s.setTx p (fun tx => { tx with
        mode := tx.mode + 1, point := if tx.point = .spinning then .preparing else tx.point }) with
        irrevocable := 1 })
    else (false, s)

/-- The token is taken if it is free. -/
def tryToken (p : Tid) : QProg Tid Addr Bool := do
  let i ← .read (·.irrevocable)
  if i = 1 then pure false else casToken p

/-- The token is waited for. -/
def waitToken (p : Tid) : QProg Tid Addr Unit := do
  modifyTx p fun tx => { tx with point := .spinning }
  .iterate () fun _ => do
    let ok ← tryToken p
    pure (if ok then .inr () else .inl ())

/-- The transaction is in serial irrevocable mode. -/
def grantSerial (p : Tid) : QProg Tid Addr Unit :=
  .modify fun s => { s.setTx p (fun tx => { tx with mode := tx.mode + 1 }) with granted := some p }

/-- The transaction is in irrevocable mode. -/
def grantMode (p : Tid) : QProg Tid Addr Unit := modifyTx p fun tx => { tx with mode := tx.mode + 1 }

/-- The end of `int_stm_set_irrevocable` at a restart. A transaction that is not active waits for the
mutex, so the quiescence does not fail. -/
def grantRestart (p : Tid) : QProg Tid Addr Unit := do
  let tx ← getTx p
  if tx.serial then do
    let _ ← stmQuiesce p
    grantSerial p
  else grantMode p

/-- `int_stm_set_irrevocable` at a restart (`serial` is -1). -/
def setIrrevocableRestart (p : Tid) : QProg Tid Addr Unit := do
  let tx ← getTx p
  if tx.mode = 3 then pure ()
  else if tx.mode = 1 then do
    waitToken p
    grantRestart p
  else grantRestart p

/-- The start timestamp. -/
def setStart (cfg : Config) (p : Tid) : QProg Tid Addr Unit :=
  .iterate () fun _ => do
    let now ← .atomic fun s => (s.gc.clock,
      { s.setTx p (fun tx => { tx with start := s.gc.clock }) with
        checked := Function.update s.checked p (decide (s.gc.clock < cfg.versionMax)) })
    if now ≥ cfg.versionMax then do
      stmQuiesceBarrier cfg p
      pure (.inl ())
    else pure (.inr ())

/-- The transaction becomes active. -/
def setActive (p : Tid) (mode : ℕ) : QProg Tid Addr Unit :=
  if mode ≠ 0 then do
    setIrrevocableRestart p
    modifyTx p fun tx => { tx with status := .irrevocable }
  else modifyTx p fun tx => { tx with status := .active }

/-- `int_stm_prepare`. -/
def intStmPrepare (cfg : Config) (p : Tid) : QProg Tid Addr Unit := do
  modifyTx p fun tx => { tx with point := .preparing }
  setStart cfg p
  let tx ← getTx p
  callGc cfg fun g => gcSetEpoch g p tx.start
  setActive p tx.mode
  stmCheckQuiesce p

/-- What happens in an abort: the locks are dropped with a new timestamp or an old one, or by `stm_drop`
after the transaction has been killed, which needs a new write set; the reason is `STM_ABORT_EXTEND_WS` or
another one; and an abort handler may request irrevocability. -/
structure Abort where
  tick : Bool
  drop : Bool
  extendWs : Bool
  request : Option Bool

/-- The threads that may increment the clock to `VERSION_MAX` or beyond once. -/
def State.entitled (cfg : Config) (s : State Tid Addr) : List Tid :=
  if s.gc.clock + 1 = cfg.versionMax then s.threads else s.spare

/-- The clock is incremented by `p`, on a path that rests upon the check in `int_stm_prepare` or not. -/
def State.tick (cfg : Config) (p : Tid) (unchecked : Bool) (s : State Tid Addr) : State Tid Addr :=
  { s with
    gc := { s.gc with clock := s.gc.clock + 1 }, stamps := (s.gc.clock + 1) :: s.stamps
    checked := Function.update s.checked p false
    crew := if s.gc.clock + 1 = cfg.versionMax then s.threads.length else s.crew
    spare := (s.entitled cfg).erase p
    overdraws :=
      if unchecked ∧ cfg.versionMax ≤ s.gc.clock + 1 ∧ p ∉ s.entitled cfg then s.overdraws + 1
      else s.overdraws }

/-- `FETCH_INC_CLOCK + 1`. -/
def fetchIncClock (cfg : Config) (p : Tid) (unchecked : Bool) : QProg Tid Addr ℕ :=
  .atomic fun s => (s.gc.clock + 1, s.tick cfg p unchecked)

/-- The commit of an update transaction, and an abort in write-through, may draw a timestamp. -/
def incClock (cfg : Config) (p : Tid) (unchecked tick : Bool) : QProg Tid Addr Unit :=
  if tick then do
    let _ ← fetchIncClock cfg p unchecked
  else pure ()

/-- `int_stm_set_irrevocable` outside of a transaction or in an abort handler, for the next execution. -/
def requestIrrevocable (p : Tid) (serial : Bool) : QProg Tid Addr Unit :=
  .modify fun s => { s.setTx p (fun tx => { tx with mode := 1, serial := serial }) with
    leaked := s.leaked || decide ((s.txs p).mode ≥ 2) }

/-- The abort handlers. -/
def abortHandlers (p : Tid) : Option Bool → QProg Tid Addr Unit
  | none => pure ()
  | some serial => requestIrrevocable p serial

/-- A transaction that is not retried is given up. -/
def giveUp (p : Tid) : QProg Tid Addr Unit :=
  .modify fun s => { s.setTx p (fun tx => { tx with point := .outside }) with
    leaked := s.leaked || decide ((s.txs p).mode ≥ 2) }

/-- `stm_rollback`. It returns only if the transaction is not retried. Whether the attempt has drawn a
timestamp or has been given up before is `unchecked`. -/
def stmRollback (cfg : Config) (p : Tid) (unchecked noRetry : Bool) (a : Abort) :
    QProg Tid Addr Unit := do
  incClock cfg p unchecked a.tick
  freeNow cfg p (if a.drop then [.writeSet p] else [])
  modifyTx p fun tx => { tx with status := .aborted, point := .aborting }
  freeNow cfg p (if a.extendWs then [.writeSet p] else [])
  abortHandlers p a.request
  let tx ← getTx p
  if tx.noRetry || noRetry then giveUp p
  else do
    intStmPrepare cfg p
    .jump

/-- What happens in a load or a store: with commit-time locking the write set is extended in the middle of
a transaction, and the old one is given to the collector. -/
inductive Event
  | grow
  | abort (a : Abort)

/-- A load or a store. It goes on after a rollback that returns, and may abort again. -/
def access (cfg : Config) (p : Tid) (unchecked : Bool) : List Event → QProg Tid Addr Unit
  | [] => pure ()
  | .grow :: es => do
    freeNow cfg p [.writeSet p]
    access cfg p unchecked es
  | .abort a :: es => do
    stmRollback cfg p unchecked false a
    access cfg p true es

/-- The outermost `int_stm_start`. -/
def intStmStart (cfg : Config) (p : Tid) (noRetry : Bool) : QProg Tid Addr Unit := do
  modifyTx p fun tx => { tx with noRetry := noRetry }
  intStmPrepare cfg p

/-- How the commit function of the design ends, and whether it has drawn a timestamp: a validation may
fail after it has. -/
inductive Outcome
  | committed (tick : Bool)
  | aborted (tick : Bool) (a : Abort)

/-- The commit function of the design. -/
def designCommit (cfg : Config) (p : Tid) : Outcome → QProg Tid Addr Unit
  | .committed tick => incClock cfg p false tick
  | .aborted tick a => do
    incClock cfg p false tick
    stmRollback cfg p tick false a

/-- The quiescence is released by a serial irrevocable transaction. -/
def releaseSerial (serial : Bool) : QProg Tid Addr Unit :=
  if serial then stmQuiesceRelease else pure ()

/-- The token is returned at the end of `int_stm_commit`. -/
def releaseToken (p : Tid) : QProg Tid Addr Unit := do
  let tx ← getTx p
  if tx.mode ≠ 0 then do
    .modify fun s => { s.setTx p (fun tx => { tx with point := .releasing }) with
      irrevocable := 0, misreleased := s.misreleased || decide ((s.txs p).mode < 2) }
    releaseSerial tx.serial
    modifyTx p fun tx => { tx with mode := 0, serial := false }
  else pure ()

/-- The outermost `int_stm_commit`; the result of the design's commit function is not used. The
blocks that the transaction has freed are given to the collector. -/
def intStmCommit (cfg : Config) (p : Tid) (outcome : Outcome) (frees : List Addr) :
    QProg Tid Addr Unit := do
  designCommit cfg p outcome
  releaseToken p
  modifyTx p fun tx => { tx with status := .committed, point := .outside }
  freeNow cfg p (frees.map .user)

/-- `int_stm_set_irrevocable` goes on with the token. An active transaction does not wait for another
one that is quiescing. -/
def goIrrevocable (cfg : Config) (p : Tid) (a : Abort) : QProg Tid Addr Unit := do
  let tx ← getTx p
  if tx.serial then do
    let ok ← stmQuiesce p
    if ok then grantSerial p else stmRollback cfg p false false a
  else grantMode p

/-- `int_stm_set_irrevocable` with `serial` 0 or 1. Whether the transaction is valid and whether it has
written are arguments; so is what happens if it aborts. -/
def intStmSetIrrevocable (cfg : Config) (p : Tid) (serial valid hasWrites : Bool) (a : Abort) :
    QProg Tid Addr Unit := do
  let tx ← getTx p
  if tx.status.isActive = false then requestIrrevocable p serial
  else if tx.mode = 3 then pure ()
  else if tx.mode = 0 then do
    modifyTx p fun tx => { tx with mode := 1, serial := serial }
    let ok ← tryToken p
    if ok ∧ valid ∧ ¬ (serial ∧ hasWrites) then goIrrevocable cfg p a
    else stmRollback cfg p false false a
  else if tx.mode = 1 then do
    waitToken p
    goIrrevocable cfg p a
  else goIrrevocable cfg p a

/-! ## Threads -/

/-- A descriptor after `int_stm_init_thread`. -/
def Tx.init : Tx where
  status := .idle
  mode := 0
  serial := false
  noRetry := false
  start := 0
  point := .outside
  inGc := false
  freeing := none

/-- `int_stm_init_thread`. -/
def intStmInitThread (cfg : Config) (p : Tid) : QProg Tid Addr Unit := do
  .modify fun s => { s with
    window := p :: s.window, exposed := s.exposed || decide (s.rolling ≠ none) }
  insideGc cfg p fun g => gcInitThread g p
  modifyTx p fun _ => .init
  stmQuiesceEnterThread p

/-- The memory of a thread is given to the collector, and then its slot. -/
def freeThread (cfg : Config) (p : Tid) : QProg Tid Addr Unit := do
  let t ← freeEpoch p
  freeAt cfg p t (.readSet p)
  freeAt cfg p t (.writeSet p)
  freeAt cfg p t (.descriptor p)
  modifyTx p fun tx => { tx with freeing := none }
  insideGc cfg p fun g => gcExitThread g p

/-- `int_stm_exit_thread`. -/
def intStmExitThread (cfg : Config) (p : Tid) (pick : ℕ) : QProg Tid Addr Unit := do
  stmQuiesceExitThread p pick
  freeThread cfg p
  .modify fun s => { s with window := s.window.filter (· ≠ p) }

/-- `stm_unit_write`, once it has the lock. -/
def stmUnitWrite (cfg : Config) (p : Tid) : QProg Tid Addr Unit := do
  let t ← fetchIncClock cfg p true
  if t ≥ cfg.versionMax then stmQuiesceBarrier cfg p else pure ()

/-! ## Calls -/

/-- What a thread may do. `spurious` stands for a spurious wake-up of a thread that sleeps. -/
inductive Cmd (Addr : Type)
  | initThread
  | exitThread (pick : ℕ)
  | start (noRetry : Bool)
  | access (events : List Event)
  | commit (outcome : Outcome) (frees : List Addr)
  | abort (noRetry : Bool) (a : Abort)
  | setIrrevocable (serial valid hasWrites : Bool) (a : Abort)
  | unitStore
  | spurious (pick : ℕ)

/-- The program of a call. -/
def exec (cfg : Config) (p : Tid) : Cmd Addr → QProg Tid Addr Unit
  | .initThread => intStmInitThread cfg p
  | .exitThread pick => intStmExitThread cfg p pick
  | .start noRetry => intStmStart cfg p noRetry
  | .access events => access cfg p false events
  | .commit outcome frees => intStmCommit cfg p outcome frees
  | .abort noRetry a => stmRollback cfg p false noRetry a
  | .setIrrevocable serial valid hasWrites a => intStmSetIrrevocable cfg p serial valid hasWrites a
  | .unitStore => stmUnitWrite cfg p
  | .spurious pick => .modify fun s => { s with sleepers := wake pick s.sleepers }

/-- The calls that the library admits: a thread is registered once, and leaves outside of a transaction;
the calls of a transaction are made by one that is active, and a unit store outside of transactions. -/
def Called (p : Tid) : Cmd Addr → State Tid Addr → Prop
  | .initThread, s => p ∉ s.threads
  | .exitThread _, s | .start _, s => p ∈ s.threads ∧ (s.txs p).status.isActive = false
  | .access _, s | .commit _ _, s | .abort _ _, s => (s.txs p).status.isActive = true
  | .setIrrevocable .., s => p ∈ s.threads
  | .unitStore, s => (s.txs p).status.isActive = false
  | .spurious _, _ => True

instance (p : Tid) (cmd : Cmd Addr) (s : State Tid Addr) : Decidable (Called p cmd s) := by
  cases cmd <;> unfold Called <;> infer_instance

/-- The state after `stm_init`. -/
def State.init (cfg : Config) : State Tid Addr where
  quiesce := 0
  mutex := none
  threads := []
  threadsNb := 0
  sleepers := []
  irrevocable := 0
  txs _ := .init
  gc := .init (cfg.gc.getD ⟨0, 0, none⟩) 0
  granted := none
  rolling := none
  barrier := []
  window := []
  stamps := []
  checked _ := false
  crew := 0
  spare := []
  overdraws := 0
  overtaken := false
  leaked := false
  misreleased := false
  halted := false
  uncounted := false
  stranded := false
  exposed := false
  failed := false

end TinyStm.Quiesce
