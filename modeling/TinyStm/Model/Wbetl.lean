import TinyStm.Model.Validate

/-!
# Write-back, encounter-time locking

`src/stm_wbetl.h` for `DESIGN == WRITE_BACK_ETL`, invisible reads.
-/

namespace TinyStm

variable {Tid Addr Lock : Type} {w : ℕ} [DecidableEq Tid] [DecidableEq Addr] [DecidableEq Lock]

/-- The value in an entry, or the one in memory if its mask is empty. -/
def entryValue (addr : Addr) (e : WEntry Addr Lock w) : M Tid Addr Lock w (BitVec w) :=
  if e.mask = 0#w then loadWord addr else pure e.value

/-- `stm_wbetl_read_invisible`. The loop's argument is the lock word to go on with
(`restart_no_load`), if there is one (otherwise `restart`). -/
def stmWbetlReadInvisible (cfg : Config Addr Lock) (p : Tid) (addr : Addr) :
    M Tid Addr Lock w (BitVec w) :=
  let lock := cfg.getLock addr
  .iterate (none : Option (LockWord Tid)) fun l? => do
    let l ← loadLockOr lock l?
    match l with
    | .owned q i => do
      let tx ← getTx p
      if tx.Owns p q i then
        match chainFind tx.wSet.entries addr tx.wSet.entries.length i with
        | .found _ e => do
          let value ← entryValue addr e
          pure (.inr value)
        | .last _ _ => do
          let value ← loadWord addr
          pure (.inr value)
      else if tx.irrevocable ≠ 0 then pure (.inl none)
      else do
        setCLock cfg p lock
        stmRollback cfg p .loadLocked
        pure (.inr 0#w)
    | .free l => do
      let value ← loadWord addr
      let l2 ← loadLock lock
      if l2 ≠ .free l then pure (.inl (some l2))
      else do
        let tx ← getTx p
        let version := lockGetTimestamp l
        if tx.irrevocable ≠ 0 then pure (.inr value)
        else if version > tx.end_ then do
          let ok ← tryExtend tx (stmWbetlExtend p)
          if ok then do
            -- the value read was not yet in the read set when the snapshot was extended
            let l2 ← loadLock lock
            if l2 ≠ .free l then pure (.inl (some l2))
            else do
              modifyTx p (addToRs cfg version lock)
              pure (.inr value)
          else do
            stmRollback cfg p .loadInvalid
            pure (.inr 0#w)
        else do
          modifyTx p (addToRs cfg version lock)
          pure (.inr value)

/-- A store to an address that entry `j` holds. -/
def wbetlMerge (p : Tid) (addr : Addr) (value mask : BitVec w) (j : ℕ)
    (e : WEntry Addr Lock w) : M Tid Addr Lock w Unit :=
  let set (x : BitVec w) : M Tid Addr Lock w Unit := modifyTx p fun tx => { tx with
    wSet := tx.wSet.modify j fun e => { e with value := x, mask := e.mask ||| mask } }
  if mask = BitVec.allOnes w then set value
  else do
    let old ← entryValue addr e
    set (BitVec.merge old value mask)

/-- The code from `do_write` on. A mask of 0 leaves the value unset. -/
def wbetlDoWrite (p : Tid) (lock : Lock) (addr : Addr) (value mask : BitVec w) (version : ℕ)
    (prev : Option ℕ) : M Tid Addr Lock w Unit :=
  let push (x : BitVec w) : M Tid Addr Lock w Unit := modifyTx p fun tx => { tx with
    wSet := tx.wSet.push prev ⟨addr, x, mask, version, lock, none, false⟩ }
  if mask = 0#w then push 0#w
  else if mask = BitVec.allOnes w then push value
  else do
    let old ← loadWord addr
    push (BitVec.merge old value mask)

/-- `stm_wbetl_write`. -/
def stmWbetlWrite (cfg : Config Addr Lock) (p : Tid) (addr : Addr) (value mask : BitVec w) :
    M Tid Addr Lock w Unit :=
  let lock := cfg.getLock addr
  .iterate () fun _ => do
    let l ← loadLock lock
    let tx ← getTx p
    match l with
    | .owned q i =>
      if tx.Owns p q i then
        if mask = 0#w then pure (.inr ())
        else match chainFind tx.wSet.entries addr tx.wSet.entries.length i with
          | .found j e => do
            wbetlMerge p addr value mask j e
            pure (.inr ())
          | .last j version => do
            extendWs cfg p
            wbetlDoWrite p lock addr value mask version (some j)
            pure (.inr ())
      else if tx.irrevocable ≠ 0 then pure (.inl ())
      else do
        setCLock cfg p lock
        stmRollback cfg p .storeLocked
        pure (.inr ())
    | .free l =>
      let version := lockGetTimestamp l
      if tx.irrevocable = 0 ∧ version > tx.end_ ∧ (stmHasRead tx lock).isSome then do
        stmRollback cfg p .storeInvalid
        pure (.inr ())
      else do
        extendWs cfg p
        let tx ← getTx p
        let ok ← casLock p lock l tx.wSet.entries.length
        if ok then do
          wbetlDoWrite p lock addr value mask version none
          pure (.inr ())
        else pure (.inl ())

/-- The loop of `stm_wbetl_commit`: install the new versions and drop the locks. -/
def wbetlInstall : List (WEntry Addr Lock w) → ℕ → M Tid Addr Lock w Unit
  | [], _ => pure ()
  | e :: es, t => do
    storeWordIf e.addr e.value e.mask
    dropLast e (lockSetTimestamp t)
    wbetlInstall es t

/-- `stm_wbetl_commit`. -/
def stmWbetlCommit (cfg : Config Addr Lock) (p : Tid) : M Tid Addr Lock w Bool :=
  commitWith cfg p (stmWbetlValidate p) wbetlInstall

end TinyStm
