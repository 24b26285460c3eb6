import TinyStm.Model.Rollback

/-!
# Validation, extension and the end of a commit

What the three designs do alike: the loop over the read set, the extension of the snapshot, and the
part of a commit that follows the acquisition of the locks.
-/

namespace TinyStm

variable {Tid Addr Lock : Type} {w : ℕ} [DecidableEq Tid] [DecidableEq Addr] [DecidableEq Lock]

/-- The loop of the validation: each lock is free with the version read, or it is owned by `p` and
entry `i` passes the design's test. -/
def validateEntries (p : Tid) (test : StmTx Addr Lock w → ℕ → REntry Lock → Bool) :
    List (REntry Lock) → M Tid Addr Lock w Bool
  | [] => pure true
  | r :: rs => do
    let l ← loadLock r.lock
    match l with
    | .owned q i => do
      let tx ← getTx p
      if tx.Owns p q i ∧ test tx i r then validateEntries p test rs else pure false
    | .free l =>
      if lockGetTimestamp l ≠ r.version then pure false else validateEntries p test rs

/-- `stm_wbetl_validate`. -/
def stmWbetlValidate (p : Tid) : M Tid Addr Lock w Bool := do
  let tx ← getTx p
  validateEntries p (fun _ _ _ => true) tx.rSet

/-- `stm_wbctl_validate`: an owned lock must have had the version read. -/
def stmWbctlValidate (p : Tid) : M Tid Addr Lock w Bool := do
  let tx ← getTx p
  validateEntries p (fun tx i r => tx.wSet.entries[i]?.any (·.version = r.version)) tx.rSet

/-- `stm_wt_validate`. -/
def stmWtValidate (p : Tid) : M Tid Addr Lock w Bool := do
  let tx ← getTx p
  validateEntries p (fun _ _ _ => true) tx.rSet

/-- The extension of the snapshot to the current time. -/
def extendWith (p : Tid) (validate : M Tid Addr Lock w Bool) : M Tid Addr Lock w Bool := do
  let now ← getClock
  let ok ← validate
  if ok then do
    modifyTx p fun tx => { tx with end_ := now }
    pure true
  else pure false

/-- `stm_wbetl_extend`. -/
def stmWbetlExtend (p : Tid) : M Tid Addr Lock w Bool := extendWith p (stmWbetlValidate p)

/-- `stm_wbctl_extend`. -/
def stmWbctlExtend (p : Tid) : M Tid Addr Lock w Bool := extendWith p (stmWbctlValidate p)

/-- `stm_wt_extend`. -/
def stmWtExtend (p : Tid) : M Tid Addr Lock w Bool := extendWith p (stmWtValidate p)

/-- The read set of a transaction that reads a version of a lock. -/
def addToRs (cfg : Config Addr Lock) (version : ℕ) (lock : Lock) (tx : StmTx Addr Lock w) :
    StmTx Addr Lock w :=
  if tx.attr.readOnly ∨ (cfg.noDuplicatesInRwSets ∧ (stmHasRead tx lock).isSome) then tx
  else { tx with rSet := tx.rSet ++ [⟨version, lock⟩] }

/-- The extension before a version newer than the snapshot is used: a read-only transaction has no
read set. -/
def tryExtend (tx : StmTx Addr Lock w) (extend : M Tid Addr Lock w Bool) : M Tid Addr Lock w Bool :=
  if tx.attr.readOnly then pure false else extend

/-- `!tx->irrevocable && ATOMIC_LOAD(&_tinystm.irrevocable)`: what the token was, or 0. -/
def checkToken (cfg : Config Addr Lock) (p : Tid) (tx : StmTx Addr Lock w) :
    M Tid Addr Lock w ℕ :=
  if cfg.irrevocableEnabled ∧ tx.irrevocable = 0 then checkIrrevocable p else pure 0

/-- The validation in a commit with timestamp `t`: not for an irrevocable transaction, and only if
another transaction has committed since the start. -/
def commitValidate (tx : StmTx Addr Lock w) (t : ℕ) (validate : M Tid Addr Lock w Bool) :
    M Tid Addr Lock w Bool :=
  if tx.irrevocable ≠ 0 ∨ tx.start = t - 1 then pure true else validate

/-- The part of a commit that the designs share: no irrevocable transaction, the timestamp, the
validation, the installation. -/
def commitWith (cfg : Config Addr Lock) (p : Tid) (validate : M Tid Addr Lock w Bool)
    (install : List (WEntry Addr Lock w) → ℕ → M Tid Addr Lock w Unit) :
    M Tid Addr Lock w Bool := do
  let tx ← getTx p
  let i ← checkToken cfg p tx
  if i ≠ 0 then do
    stmRollback cfg p .commitIrrevocable
    pure false
  else do
    let t ← fetchTimestamp p
    let ok ← commitValidate tx t validate
    if ok then do
      recordUpdate p t
      install tx.wSet.entries t
      pure true
    else do
      stmRollback cfg p .commitInvalid
      pure false

end TinyStm
