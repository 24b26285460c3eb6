import TinyStm.Model.Validate

/-!
# Write-back, commit-time locking

`src/stm_wbctl.h` for `DESIGN == WRITE_BACK_CTL`.
-/

namespace TinyStm

variable {Tid Addr Lock : Type} {w : ℕ} [DecidableEq Tid] [DecidableEq Addr] [DecidableEq Lock]

/-- The entry that `stm_has_written` finds. -/
def writtenEntry (tx : StmTx Addr Lock w) (addr : Addr) : Option (WEntry Addr Lock w) :=
  tx.wSet.entries.find? fun e => e.addr = addr

/-- The value read, under the bits already written. -/
def withWritten (written : Option (WEntry Addr Lock w)) (value : BitVec w) : BitVec w :=
  match written with
  | none => value
  | some e => BitVec.merge value e.value e.mask

/-- `stm_wbctl_read`. -/
def stmWbctlRead (cfg : Config Addr Lock) (p : Tid) (addr : Addr) :
    M Tid Addr Lock w (BitVec w) := do
  let lock := cfg.getLock addr
  let tx ← getTx p
  let written := writtenEntry tx addr
  match written.filter fun e => e.mask = BitVec.allOnes w with
  | some e => pure e.value
  | none =>
    .iterate (none : Option (LockWord Tid)) fun l? => do
      let l ← loadLockOr lock l?
      match l with
      | .owned _ _ => pure (.inl none)
      | .free l => do
        let value ← loadWord addr
        let l2 ← loadLock lock
        if l2 ≠ .free l then pure (.inl (some l2))
        else do
          let tx ← getTx p
          let version := lockGetTimestamp l
          if tx.irrevocable ≠ 0 then pure (.inr value)
          else if version > tx.end_ then do
            let ok ← tryExtend tx (stmWbctlExtend p)
            if ok then do
              let l' ← loadLock lock
              -- on a change the loop goes on with the old word
              if l' ≠ l2 then pure (.inl (some l2))
              else do
                modifyTx p (addToRs cfg version lock)
                pure (.inr (withWritten written value))
            else do
              stmRollback cfg p .loadInvalid
              pure (.inr 0#w)
          else do
            modifyTx p (addToRs cfg version lock)
            pure (.inr (withWritten written value))

/-- The write set with a new entry, in an array twice as large if it was full. -/
def wbctlPush (e : WEntry Addr Lock w) (tx : StmTx Addr Lock w) : StmTx Addr Lock w :=
  { tx with
    wSet := { tx.wSet with
      entries := tx.wSet.entries ++ [e]
      size := if tx.wSet.entries.length = tx.wSet.size then tx.wSet.size * 2
        else tx.wSet.size } }

/-- `stm_wbctl_write`. -/
def stmWbctlWrite (cfg : Config Addr Lock) (p : Tid) (addr : Addr) (value mask : BitVec w) :
    M Tid Addr Lock w Unit :=
  let lock := cfg.getLock addr
  .iterate () fun _ => do
    let l ← loadLock lock
    match l with
    | .owned _ _ => pure (.inl ())
    | .free l => do
      let tx ← getTx p
      match stmHasWritten tx addr with
      | some i => do
        modifyTx p fun tx => { tx with
          wSet := tx.wSet.modify i fun e =>
            { e with value := BitVec.merge e.value value mask, mask := e.mask ||| mask } }
        pure (.inr ())
      | none =>
        let version := lockGetTimestamp l
        if tx.irrevocable = 0 ∧ version > tx.end_ ∧ (stmHasRead tx lock).isSome then do
          stmRollback cfg p .storeInvalid
          pure (.inr ())
        else do
          modifyTx p (wbctlPush
            ⟨addr, if mask = 0#w then 0#w else value, mask, version, lock, none, true⟩)
          pure (.inr ())

/-- The acquisition of the lock of entry `i`; the result is false if the transaction has
aborted. -/
def wbctlAcquireEntry (cfg : Config Addr Lock) (p : Tid) (i : ℕ) (lock : Lock) :
    M Tid Addr Lock w Bool :=
  .iterate () fun _ => do
    let l ← loadLock lock
    match l with
    | .owned q j => do
      let tx ← getTx p
      if tx.Owns p q j then pure (.inr true)
      else do
        setCLock cfg p lock
        if tx.irrevocable ≠ 0 then pure (.inl ())
        else do
          stmRollback cfg p .storeLocked
          pure (.inr false)
    | .free l => do
      let ok ← casLock p lock l i
      if ok then do
        modifyTx p fun tx => { tx with
          wSet := { tx.wSet.modify i fun e =>
              { e with noDrop := false, version := lockGetTimestamp l } with
            nbAcquired := tx.wSet.nbAcquired + 1 } }
        pure (.inr true)
      else pure (.inl ())

/-- The loop that acquires the locks of the entries. -/
def wbctlAcquire (cfg : Config Addr Lock) (p : Tid) : List (WEntry Addr Lock w × ℕ) →
    M Tid Addr Lock w Bool
  | [] => pure true
  | (e, i) :: es => do
    let ok ← wbctlAcquireEntry cfg p i e.lock
    if ok then wbctlAcquire cfg p es else pure false

/-- The value of an entry goes to memory, under its mask. -/
def wbctlStore (e : WEntry Addr Lock w) : M Tid Addr Lock w Unit :=
  if e.mask = BitVec.allOnes w then storeWord e.addr e.value
  else if e.mask ≠ 0#w then do
    let old ← loadWord e.addr
    storeWord e.addr (BitVec.merge old e.value e.mask)
  else pure ()

/-- The entry whose lock was acquired drops it. -/
def wbctlDrop (e : WEntry Addr Lock w) (l : ℕ) : M Tid Addr Lock w Unit :=
  if e.noDrop = false then storeLock e.lock l else pure ()

/-- The loop of `stm_wbctl_commit`: install the new versions and drop the locks. -/
def wbctlInstall : List (WEntry Addr Lock w) → ℕ → M Tid Addr Lock w Unit
  | [], _ => pure ()
  | e :: es, t => do
    wbctlStore e
    wbctlDrop e (lockSetTimestamp t)
    wbctlInstall es t

/-- `stm_wbctl_commit`. The locks are acquired in reverse order. -/
def stmWbctlCommit (cfg : Config Addr Lock) (p : Tid) : M Tid Addr Lock w Bool := do
  let tx ← getTx p
  let ok ← wbctlAcquire cfg p tx.wSet.entries.zipIdx.reverse
  if ok then commitWith cfg p (stmWbctlValidate p) wbctlInstall else pure false

end TinyStm
