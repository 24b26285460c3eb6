import TinyStm.Model.Atomic

/-!
# Rollback and restart

`stm_rollback`, the three designs' `*_rollback`, and `int_stm_prepare` of `src/stm_internal.h`.
The busy waiting of `CM_BACKOFF` has no effect on the state and is left out, and so is
`stm_check_quiesce` (no transaction quiesces).
-/

namespace TinyStm

variable {Tid Addr Lock : Type} {w : ℕ} [DecidableEq Tid] [DecidableEq Addr] [DecidableEq Lock]

/-- The loop of `stm_wbetl_rollback`: only the last covered address drops the lock. -/
def wbetlDropLocks : List (WEntry Addr Lock w) → M Tid Addr Lock w Unit
  | [] => pure ()
  | e :: es => do
    dropLast e (lockSetTimestamp e.version)
    wbetlDropLocks es

/-- `stm_wbetl_rollback`. -/
def stmWbetlRollback (p : Tid) : M Tid Addr Lock w Unit := do
  let tx ← getTx p
  wbetlDropLocks tx.wSet.entries

/-- The loop of `stm_wbctl_rollback`, from the last entry on, while `n` locks are still held. -/
def wbctlDropLocks (p : Tid) : List (WEntry Addr Lock w) → ℕ → M Tid Addr Lock w Unit
  | _, 0 => pure ()
  -- there is no entry left
  | [], _ + 1 => .modify fun s => { s with overrun := true }
  | e :: es, n + 1 =>
    if e.noDrop then wbctlDropLocks p es (n + 1)
    else do
      modifyTx p fun tx => { tx with wSet := { tx.wSet with nbAcquired := n } }
      storeLock e.lock (lockSetTimestamp e.version)
      wbctlDropLocks p es n

/-- `stm_wbctl_rollback`. -/
def stmWbctlRollback (p : Tid) : M Tid Addr Lock w Unit := do
  let tx ← getTx p
  wbctlDropLocks p tx.wSet.entries.reverse tx.wSet.nbAcquired

/-- The timestamp for locks that have no incarnation number left: drawn once for a rollback. -/
def wtNewTimestamp (t : ℕ) : M Tid Addr Lock w ℕ :=
  if t = 0 then fetchIncClock else pure t

/-- The loop of `stm_wt_rollback`: restore the previous value and, at the last covered address, drop
the lock with the next incarnation number, or with a timestamp `t` if there is none left. -/
def wtUndo : List (WEntry Addr Lock w) → ℕ → M Tid Addr Lock w Unit
  | [], _ => pure ()
  | e :: es, t => do
    storeWordIf e.addr e.value e.mask
    if e.next ≠ none then wtUndo es t
    else if lockGetIncarnation e.version + 1 > incarnationMax then do
      let t ← wtNewTimestamp t
      storeLock e.lock (lockSetTimestamp t)
      wtUndo es t
    else do
      storeLock e.lock (lockUpdIncarnation e.version (lockGetIncarnation e.version + 1))
      wtUndo es t

/-- `stm_wt_rollback`. -/
def stmWtRollback (p : Tid) : M Tid Addr Lock w Unit := do
  let tx ← getTx p
  wtUndo tx.wSet.entries 0

/-- The loop of `int_stm_set_irrevocable` that waits for the token. -/
def acquireToken (p : Tid) : M Tid Addr Lock w Unit :=
  .iterate () fun _ => do
    let i ← loadIrrevocable
    if i = 1 then pure (.inl ())
    else do
      let ok ← casIrrevocable p
      pure (if ok then .inr () else .inl ())

/-- `int_stm_set_irrevocable` at a restart (`serial` is -1): the token is acquired unless it is
held already. In serial mode `stm_quiesce` then waits until no other transaction is active, which is left
out: here the others may go on. -/
def setIrrevocableRestart (p : Tid) : M Tid Addr Lock w Unit := do
  let tx ← getTx p
  if tx.irrevocable % 8 = 3 then pure ()
  else if tx.irrevocable % 8 = 1 then do
    acquireToken p
    modifyTx p fun tx => { tx with irrevocable := tx.irrevocable + 1 }
  else modifyTx p fun tx => { tx with irrevocable := tx.irrevocable + 1 }

/-- The start timestamp. A thread that must roll the clock over stays in the loop. -/
def setStart (cfg : Config Addr Lock) (p : Tid) : M Tid Addr Lock w Unit :=
  .iterate () fun _ => do
    let now ← getClock
    modifyTx p fun tx => { tx with start := now, end_ := now }
    pure (if now ≥ cfg.versionMax then .inl () else .inr ())

/-- `int_stm_prepare`. -/
def intStmPrepare (cfg : Config Addr Lock) (p : Tid) : M Tid Addr Lock w Unit := do
  modifyTx p fun tx => { tx with
    rSet := [], wSet := { tx.wSet with entries := [], nbAcquired := 0 }, trace := [] }
  setStart cfg p
  let tx ← getTx p
  if tx.irrevocable ≠ 0 then do
    setIrrevocableRestart p
    modifyTx p fun tx => { tx with status := .irrevocable }
  else modifyTx p fun tx => { tx with status := .active }

/-- The wait of `CM_DELAY` until the contended lock is free. -/
def waitCLock (cfg : Config Addr Lock) (p : Tid) : M Tid Addr Lock w Unit := do
  let tx ← getTx p
  match cfg.cm, tx.cLock with
  | .delay, some lock => do
    .iterate () fun _ => do
      let l ← loadLock lock
      match l with
      | .owned _ _ => pure (.inl ())
      | .free _ => pure (.inr ())
    modifyTx p fun tx => { tx with cLock := none }
  | _, _ => pure ()

/-- The abort callbacks run. One that calls `stm_set_irrevocable` does so in an inactive transaction, so
that it requests irrevocability for the next attempt. -/
def runAbortCallbacks (cfg : Config Addr Lock) (p : Tid) (reason : Reason) :
    M Tid Addr Lock w Unit :=
  modifyTx p fun tx => { tx with
    calls := tx.calls ++ cfg.abortCb
    irrevocable := if cfg.requests reason.code tx.statAborts then 1 else tx.irrevocable }

/-- The design's rollback function. -/
def stmDesignRollback (cfg : Config Addr Lock) (p : Tid) : M Tid Addr Lock w Unit := do
  recordAbort p
  let tx ← getTx p
  match cfg.designOf tx.attr with
  | .writeBackCtl => stmWbctlRollback p
  | .writeThrough => stmWtRollback p
  | _ => stmWbetlRollback p

/-- `stm_rollback`. It returns only if the transaction is not retried. -/
def stmRollback (cfg : Config Addr Lock) (p : Tid) (reason : Reason) : M Tid Addr Lock w Unit := do
  stmDesignRollback cfg p
  modifyTx p fun tx => { tx with
    status := .aborted, phase := .running, nesting := 1, statAborts := statSucc tx.statAborts
    statAbortsR := Function.update tx.statAbortsR (abortIndex reason.code)
      (statSucc (tx.statAbortsR (abortIndex reason.code)))
    aborts := reason :: tx.aborts
    wSet := { tx.wSet with
      size := if reason.code = stmAbortExtendWs then tx.wSet.size * 2 else tx.wSet.size } }
  runAbortCallbacks cfg p reason
  waitCLock cfg p
  let tx ← getTx p
  if tx.attr.noRetry ∨ reason.code &&& stmAbortNoRetry = stmAbortNoRetry then
    modifyTx p fun tx => { tx with nesting := 0 }
  else do
    intStmPrepare cfg p
    .jump

/-- `tx->c_lock = lock` before an abort, under `CM_DELAY`. -/
def setCLock (cfg : Config Addr Lock) (p : Tid) (lock : Lock) : M Tid Addr Lock w Unit :=
  if cfg.cm = .delay then modifyTx p fun tx => { tx with cLock := some lock } else pure ()

/-- `if (nb_entries == size) stm_rollback(tx, STM_ABORT_EXTEND_WS)`: a rollback that returns is
followed by what comes next. -/
def extendWs (cfg : Config Addr Lock) (p : Tid) : M Tid Addr Lock w Unit := do
  let tx ← getTx p
  if tx.wSet.entries.length = tx.wSet.size then stmRollback cfg p .writeSetFull else pure ()

end TinyStm
