import TinyStm.Model.Validate

/-!
# Write-through

`src/stm_wt.h` for `DESIGN == WRITE_THROUGH`. The write set is an undo log: an entry with a mask
other than 0 holds the value that its word had before.
-/

namespace TinyStm

variable {Tid Addr Lock : Type} {w : ℕ} [DecidableEq Tid] [DecidableEq Addr] [DecidableEq Lock]

/-- `stm_wt_read`. The version is added to the read set before the snapshot is extended. -/
def stmWtRead (cfg : Config Addr Lock) (p : Tid) (addr : Addr) : M Tid Addr Lock w (BitVec w) :=
  let lock := cfg.getLock addr
  .iterate (none : Option (LockWord Tid)) fun l? => do
    let l ← loadLockOr lock l?
    match l with
    | .free l => do
      let value ← loadWord addr
      let l2 ← loadLock lock
      if l2 ≠ .free l then pure (.inl (some l2))
      else do
        let tx ← getTx p
        let version := lockGetTimestamp l
        if tx.irrevocable ≠ 0 then pure (.inr value)
        else do
          modifyTx p (addToRs cfg version lock)
          if version > tx.end_ then do
            let ok ← tryExtend tx (stmWtExtend p)
            if ok then pure (.inr value)
            else do
              stmRollback cfg p .loadInvalid
              pure (.inr 0#w)
          else pure (.inr value)
    | .owned q i => do
      let tx ← getTx p
      if tx.Owns p q i then do
        let value ← loadWord addr
        pure (.inr value)
      else if tx.irrevocable ≠ 0 then pure (.inl none)
      else do
        setCLock cfg p lock
        stmRollback cfg p .loadLocked
        pure (.inr 0#w)

/-- The word at `addr` under the bits `mask` of `value`. -/
def wtStore (addr : Addr) (value mask : BitVec w) : M Tid Addr Lock w Unit :=
  if mask = BitVec.allOnes w then storeWord addr value
  else do
    let old ← loadWord addr
    storeWord addr (BitVec.merge old value mask)

/-- A store to an address that an entry of the chain from `i` holds: if entry `i`, the first of the
chain, has mask 0, the old value is saved in it. -/
def wtOverwrite (p : Tid) (addr : Addr) (value mask : BitVec w) (i : ℕ) :
    M Tid Addr Lock w Unit := do
  let tx ← getTx p
  if tx.wSet.entries[i]?.any (·.mask = 0#w) then do
    let old ← loadWord addr
    modifyTx p fun tx => { tx with
      wSet := tx.wSet.modify i fun e => { e with value := old, mask := mask } }
    wtStore addr value mask
  else wtStore addr value mask

/-- The code from `do_write` on. A mask of 0 leaves the value unset. -/
def wtDoWrite (p : Tid) (lock : Lock) (addr : Addr) (value mask : BitVec w) (version : ℕ)
    (prev : Option ℕ) : M Tid Addr Lock w Unit :=
  let push (x : BitVec w) : M Tid Addr Lock w Unit := modifyTx p fun tx => { tx with
    wSet := tx.wSet.push prev ⟨addr, x, mask, version, lock, none, false⟩ }
  if mask = 0#w then push 0#w
  else do
    let old ← loadWord addr
    storeWord addr (BitVec.merge old value mask)
    push old

/-- `stm_wt_write`. -/
def stmWtWrite (cfg : Config Addr Lock) (p : Tid) (addr : Addr) (value mask : BitVec w) :
    M Tid Addr Lock w Unit :=
  let lock := cfg.getLock addr
  .iterate () fun _ => do
    let l ← loadLock lock
    let tx ← getTx p
    match l with
    | .owned q i =>
      if tx.Owns p q i then
        if mask = 0#w then pure (.inr ())
        else match chainFind tx.wSet.entries addr tx.wSet.entries.length i with
          | .found _ _ => do
            wtOverwrite p addr value mask i
            pure (.inr ())
          | .last j version => do
            extendWs cfg p
            wtDoWrite p lock addr value mask version (some j)
            pure (.inr ())
      else if tx.irrevocable ≠ 0 then pure (.inl ())
      else do
        setCLock cfg p lock
        stmRollback cfg p .storeLocked
        pure (.inr ())
    | .free l =>
      let version := lockGetTimestamp l
      if tx.irrevocable = 0 ∧ version > tx.end_ ∧ (stmHasRead tx lock).isSome then do
        stmRollback cfg p .storeInvalid
        pure (.inr ())
      else do
        extendWs cfg p
        let tx ← getTx p
        let ok ← casLock p lock l tx.wSet.entries.length
        if ok then do
          wtDoWrite p lock addr value mask l none
          pure (.inr ())
        else pure (.inl ())

/-- The loop of `stm_wt_commit`: the new values are in memory, the locks are dropped. -/
def wtInstall : List (WEntry Addr Lock w) → ℕ → M Tid Addr Lock w Unit
  | [], _ => pure ()
  | e :: es, t => do
    dropLast e (lockSetTimestamp t)
    wtInstall es t

/-- `stm_wt_commit`. -/
def stmWtCommit (cfg : Config Addr Lock) (p : Tid) : M Tid Addr Lock w Bool :=
  commitWith cfg p (stmWtValidate p) wtInstall

end TinyStm
