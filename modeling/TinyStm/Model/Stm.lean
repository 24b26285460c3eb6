import TinyStm.Model.Wbetl
import TinyStm.Model.Wbctl
import TinyStm.Model.Wt

/-!
# The operations of the library

The functions of `src/stm_internal.h` and `src/stm.c` that an application calls, dispatched by the
design, and the commands that a thread's client may give.
-/

namespace TinyStm

variable {Tid Addr Lock : Type} {w : ℕ} [DecidableEq Tid] [DecidableEq Addr] [DecidableEq Lock]

/-- `tx->nesting`, an unsigned int, incremented. -/
def nestingSucc (n : ℕ) : ℕ := (n + 1) % 2 ^ 32

/-- `tx->nesting`, an unsigned int, decremented. -/
def nestingPred (n : ℕ) : ℕ := (n + (2 ^ 32 - 1)) % 2 ^ 32

/-- `int_stm_start`. -/
def intStmStart (cfg : Config Addr Lock) (p : Tid) (attr : Attr) : M Tid Addr Lock w Unit := do
  let tx ← getTx p
  modifyTx p fun tx => { tx with nesting := nestingSucc tx.nesting }
  if tx.nesting > 0 then pure ()
  else do
    modifyTx p fun tx => { tx with attr := attr }
    intStmPrepare cfg p
    runCallbacks p cfg.startCb

/-- `int_stm_load`. -/
def intStmLoad (cfg : Config Addr Lock) (p : Tid) (addr : Addr) :
    M Tid Addr Lock w (BitVec w) := do
  let tx ← getTx p
  match cfg.designOf tx.attr with
  | .writeBackCtl => stmWbctlRead cfg p addr
  | .writeThrough => stmWtRead cfg p addr
  | _ => stmWbetlReadInvisible cfg p addr

/-- `stm_write`. -/
def stmWrite (cfg : Config Addr Lock) (p : Tid) (addr : Addr) (value mask : BitVec w) :
    M Tid Addr Lock w Unit := do
  let tx ← getTx p
  match cfg.designOf tx.attr with
  | .writeBackCtl => stmWbctlWrite cfg p addr value mask
  | .writeThrough => stmWtWrite cfg p addr value mask
  | _ => stmWbetlWrite cfg p addr value mask

/-- `int_stm_store`. -/
def intStmStore (cfg : Config Addr Lock) (p : Tid) (addr : Addr) (value : BitVec w) :
    M Tid Addr Lock w Unit :=
  stmWrite cfg p addr value (BitVec.allOnes w)

/-- `int_stm_store2`. -/
def intStmStore2 (cfg : Config Addr Lock) (p : Tid) (addr : Addr) (value mask : BitVec w) :
    M Tid Addr Lock w Unit :=
  stmWrite cfg p addr value mask

/-- The design's commit function. -/
def stmDesignCommit (cfg : Config Addr Lock) (p : Tid) : M Tid Addr Lock w Bool := do
  let tx ← getTx p
  match cfg.designOf tx.attr with
  | .writeBackCtl => stmWbctlCommit cfg p
  | .writeThrough => stmWtCommit cfg p
  | _ => stmWbetlCommit cfg p

/-- A transaction that has written nothing commits at once. The result of the design's commit
function is not used. -/
def commitWriteSet (cfg : Config Addr Lock) (p : Tid) (tx : StmTx Addr Lock w) :
    M Tid Addr Lock w Unit :=
  if tx.wSet.entries = [] then recordReadOnly p
  else do
    let _ ← stmDesignCommit cfg p
    pure ()

/-- The token is given back at the end of an irrevocable transaction. -/
def releaseToken (p : Tid) (tx : StmTx Addr Lock w) : M Tid Addr Lock w Unit :=
  if tx.irrevocable ≠ 0 then releaseIrrevocable p else pure ()

/-- `int_stm_commit`. -/
def intStmCommit (cfg : Config Addr Lock) (p : Tid) : M Tid Addr Lock w Bool := do
  modifyTx p fun tx => { tx with nesting := nestingPred tx.nesting }
  let tx ← getTx p
  if tx.nesting > 0 then pure true
  else do
    runCallbacks p cfg.precommitCb
    commitWriteSet cfg p tx
    modifyTx p fun tx => { tx with statCommits := statSucc tx.statCommits }
    let tx ← getTx p
    releaseToken p tx
    modifyTx p fun tx => { tx with status := .committed, phase := .running }
    runCallbacks p cfg.commitCb
    pure true

/-- `stm_abort`. -/
def stmAbort (cfg : Config Addr Lock) (p : Tid) (reason : ℕ) : M Tid Addr Lock w Unit :=
  stmRollback cfg p (.explicit reason)

/-- The validation in `int_stm_set_irrevocable`. With `DESIGN == MODULAR` the test is inverted. -/
def setIrrevocableValidate (cfg : Config Addr Lock) (p : Tid) : M Tid Addr Lock w Bool :=
  match cfg.design with
  | .writeBackEtl => stmWbetlValidate p
  | .writeBackCtl => stmWbctlValidate p
  | .writeThrough => stmWtValidate p
  | .modular => do
    let tx ← getTx p
    match cfg.designOf tx.attr with
    | .writeBackCtl => return !(← stmWbctlValidate p)
    | .writeThrough => return !(← stmWtValidate p)
    | _ => return !(← stmWbetlValidate p)

/-- The token is taken if it is free. -/
def tryToken (p : Tid) : M Tid Addr Lock w Bool := do
  let i ← loadIrrevocable
  if i = 1 then pure false else casIrrevocable p

/-- `int_stm_set_irrevocable` with `serial` 0. -/
def intStmSetIrrevocable (cfg : Config Addr Lock) (p : Tid) : M Tid Addr Lock w Bool := do
  let tx ← getTx p
  if tx.status.isActive = false then do
    modifyTx p fun tx => { tx with irrevocable := 1 }
    pure false
  else if tx.irrevocable % 8 = 3 then pure true
  else if tx.irrevocable = 0 then do
    modifyTx p fun tx => { tx with irrevocable := 1 }
    let got ← tryToken p
    if got then do
      let ok ← setIrrevocableValidate cfg p
      if ok then do
        modifyTx p fun tx => { tx with irrevocable := tx.irrevocable + 1 }
        pure true
      else do
        stmRollback cfg p .irrevocableInvalid
        pure false
    else do
      stmRollback cfg p .tokenTaken
      pure false
  else do
    setIrrevocableRestart p
    pure true

/-- The end of `int_stm_set_irrevocable` in a transaction that has the token. In serial mode `stm_quiesce`
waits for the other threads; `blocked` is its result, non-zero if another thread is quiescing. -/
def enterIrrevocable (cfg : Config Addr Lock) (p : Tid) (blocked : Bool) :
    M Tid Addr Lock w Bool := do
  let tx ← getTx p
  if tx.irrevocable / 8 % 2 = 1 ∧ blocked then do
    stmRollback cfg p .quiescing
    pure false
  else do
    modifyTx p fun tx => { tx with irrevocable := tx.irrevocable + 1 }
    pure true

/-- `int_stm_set_irrevocable` with `serial` 1. -/
def intStmSetIrrevocableSerial (cfg : Config Addr Lock) (p : Tid) (blocked : Bool) :
    M Tid Addr Lock w Bool := do
  let tx ← getTx p
  if tx.status.isActive = false then do
    modifyTx p fun tx => { tx with irrevocable := 9 }
    pure false
  else if tx.irrevocable % 8 = 3 then pure true
  else if tx.irrevocable = 0 then do
    modifyTx p fun tx => { tx with irrevocable := 9 }
    let got ← tryToken p
    if got then do
      let ok ← setIrrevocableValidate cfg p
      if ok then
        -- direct accesses are not mixed with transactional ones
        if tx.wSet.entries ≠ [] then do
          stmRollback cfg p .serialWrites
          pure false
        else enterIrrevocable cfg p blocked
      else do
        stmRollback cfg p .irrevocableInvalid
        pure false
    else do
      stmRollback cfg p .tokenTaken
      pure false
  else do
    if tx.irrevocable % 8 = 1 then acquireToken p else pure ()
    enterIrrevocable cfg p blocked

/-- What the client of a thread may call. -/
inductive Cmd (Addr : Type) (w : ℕ)
  | start (attr : Attr)
  | load (addr : Addr)
  | store (addr : Addr) (value : BitVec w)
  | store2 (addr : Addr) (value mask : BitVec w)
  | commit
  | abort (reason : ℕ)
  | setIrrevocable
  deriving DecidableEq

/-- The program of a command. A load or a store that returns to an attempt that is still active is
recorded in its trace. -/
def exec (cfg : Config Addr Lock) (p : Tid) : Cmd Addr w → M Tid Addr Lock w Unit
  | .start attr => intStmStart cfg p attr
  | .load addr => do
    let x ← intStmLoad cfg p addr
    record p (.load addr x)
  | .store addr value => do
    intStmStore cfg p addr value
    record p (.store addr value (BitVec.allOnes w))
  | .store2 addr value mask => do
    intStmStore2 cfg p addr value mask
    record p (.store addr value mask)
  | .commit => do
    let _ ← intStmCommit cfg p
  | .abort reason => stmAbort cfg p reason
  | .setIrrevocable => do
    let _ ← intStmSetIrrevocable cfg p

/-- A descriptor after `int_stm_init_thread`, with room for `size` writes. -/
def StmTx.init (size : ℕ) : StmTx Addr Lock w where
  attr := ⟨0, false, false⟩
  status := .idle
  start := 0
  end_ := 0
  rSet := []
  wSet := ⟨[], size, 0⟩
  irrevocable := 0
  nesting := 0
  cLock := none
  statCommits := 0
  statAborts := 0
  statAbortsR _ := 0
  calls := []
  aborts := []
  phase := .running
  trace := []

/-- The state after the initialisation of the library and of all threads: the locks and the clock
are 0, `m₀` is the memory. `size` is `RW_SET_SIZE`. -/
def State.init (m₀ : Mem Addr w) (size : ℕ) : State Tid Addr Lock w where
  mem := m₀
  locks _ := .free 0
  clock := 0
  irrevocable := 0
  txs _ := .init size
  saved _ := 0
  commits := []
  overrun := false

end TinyStm
