import TinyStm.History.Serial

/-!
# The data of the library

Lock words, read and write sets, transaction descriptors and the global state of
`src/stm_internal.h`, for a non-MODULAR contention manager. `Tid` are the threads (one descriptor
each), `Addr` the word addresses, `Lock` the elements of the lock array, and a word has `w` bits.

Timestamps are unbounded: a run of the model is the part of a run between two clock rollovers, and
a thread that finds the clock at `VERSION_MAX` waits for the next one. Some fields are auxiliary:
no branch of a program reads them, they only record what has happened (`phase`, `trace`, `aborts`,
`saved`, `commits` and `overrun`).
-/

namespace TinyStm

/-! ## Constants -/

/-- `DESIGN`. -/
inductive Design
  | writeBackEtl
  | writeBackCtl
  | writeThrough
  | modular
  deriving DecidableEq

/-- `CM`, without `CM_MODULAR`. -/
inductive Cm
  | suicide
  | delay
  | backoff
  deriving DecidableEq

/-- `OWNED_BITS`. -/
def ownedBits : ℕ := 1

/-- `INCARNATION_BITS`. -/
def incarnationBits : ℕ := 3

/-- `INCARNATION_MAX`. -/
def incarnationMax : ℕ := 1 <<< incarnationBits - 1

/-- `LOCK_BITS`. -/
def lockBits : ℕ := ownedBits + incarnationBits

/-- `MAX_THREADS`. -/
def maxThreads : ℕ := 8192

/-- `LOCK_GET_TIMESTAMP`. -/
def lockGetTimestamp (l : ℕ) : ℕ := l >>> lockBits

/-- `LOCK_SET_TIMESTAMP`. -/
def lockSetTimestamp (t : ℕ) : ℕ := t <<< lockBits

/-- `LOCK_GET_INCARNATION`. -/
def lockGetIncarnation (l : ℕ) : ℕ := (l &&& incarnationMax <<< 1) >>> ownedBits

/-- `LOCK_SET_INCARNATION`. -/
def lockSetIncarnation (i : ℕ) : ℕ := i <<< ownedBits

/-- `LOCK_UPD_INCARNATION`: the bits above the incarnation are kept. -/
def lockUpdIncarnation (l i : ℕ) : ℕ := l >>> lockBits <<< lockBits ||| lockSetIncarnation i

/-- `STM_ABORT_EXPLICIT`. -/
def stmAbortExplicit : ℕ := 1 <<< 5

/-- `STM_ABORT_NO_RETRY`. -/
def stmAbortNoRetry : ℕ := 1 <<< 5 ||| 0x01 <<< 8

/-- `STM_ABORT_RW_CONFLICT`. -/
def stmAbortRwConflict : ℕ := 1 <<< 6 ||| 0x02 <<< 8

/-- `STM_ABORT_WR_CONFLICT`. -/
def stmAbortWrConflict : ℕ := 1 <<< 6 ||| 0x03 <<< 8

/-- `STM_ABORT_WW_CONFLICT`. -/
def stmAbortWwConflict : ℕ := 1 <<< 6 ||| 0x04 <<< 8

/-- `STM_ABORT_VAL_READ`. -/
def stmAbortValRead : ℕ := 1 <<< 6 ||| 0x05 <<< 8

/-- `STM_ABORT_VAL_WRITE`. -/
def stmAbortValWrite : ℕ := 1 <<< 6 ||| 0x06 <<< 8

/-- `STM_ABORT_VALIDATE`. -/
def stmAbortValidate : ℕ := 1 <<< 6 ||| 0x07 <<< 8

/-- `STM_ABORT_IRREVOCABLE`. -/
def stmAbortIrrevocable : ℕ := 1 <<< 6 ||| 0x09 <<< 8

/-- `STM_ABORT_EXTEND_WS`. -/
def stmAbortExtendWs : ℕ := 1 <<< 6 ||| 0x0C <<< 8

/-- `STM_ABORT_OTHER`. -/
def stmAbortOther : ℕ := 1 <<< 6 ||| 0x0F <<< 8

/-! ## Types -/

/-- Why `stm_rollback` is called. A load or a store (which may be one that is installed) finds its lock
owned by another transaction, or its version too new; the write set is full; a commit finds an irrevocable
transaction, or its read set changed; a transaction that becomes irrevocable finds the token taken, or fails
its validation, or, in serial mode, has written something already, or finds another thread quiescing; or
the application aborts. -/
inductive Reason
  | loadLocked
  | loadInvalid
  | storeLocked
  | storeInvalid
  | writeSetFull
  | commitIrrevocable
  | commitInvalid
  | tokenTaken
  | irrevocableInvalid
  | serialWrites
  | quiescing
  | explicit (reason : ℕ)
  deriving DecidableEq

/-- The reason that is given to `stm_rollback`. -/
def Reason.code : Reason → ℕ
  | .loadLocked => stmAbortRwConflict
  | .loadInvalid => stmAbortValRead
  | .storeLocked => stmAbortWwConflict
  | .storeInvalid => stmAbortValWrite
  | .writeSetFull => stmAbortExtendWs
  | .commitIrrevocable => stmAbortIrrevocable
  | .commitInvalid => stmAbortValidate
  | .tokenTaken => stmAbortIrrevocable
  | .irrevocableInvalid => stmAbortValidate
  | .serialWrites => stmAbortIrrevocable
  | .quiescing => stmAbortIrrevocable
  | .explicit reason => reason ||| stmAbortExplicit

/-- The index of a reason in `stat_aborts_r`. -/
def abortIndex (code : ℕ) : ℕ := (code >>> 8) &&& 0x0F

/-- A counter of the statistics, an unsigned int, incremented. -/
def statSucc (n : ℕ) : ℕ := (n + 1) % 2 ^ 32

/-- A lock word: the owned bit is clear and the other bits are a version `l`, or it is set and the
other bits are the address of entry `i` of the write set of thread `p`. -/
inductive LockWord (Tid : Type)
  | free (l : ℕ)
  | owned (p : Tid) (i : ℕ)
  deriving DecidableEq

/-- `stm_tx_attr_t`. -/
structure Attr where
  id : ℕ
  readOnly : Bool
  noRetry : Bool
  deriving DecidableEq

/-- The transaction status. -/
inductive Status
  | idle
  | active
  | irrevocable
  | committed
  | aborted
  deriving DecidableEq

/-- `IS_ACTIVE`. -/
def Status.isActive : Status → Bool
  | .active | .irrevocable => true
  | .idle | .committed | .aborted => false

/-- `r_entry_t`. -/
structure REntry (Lock : Type) where
  version : ℕ
  lock : Lock
  deriving DecidableEq

/-- `w_entry_t`: `version` is a timestamp in the write-back designs and the overwritten lock word in
write-through; `next` is the index of the next entry covered by the same lock (WRITE_BACK_ETL and
WRITE_THROUGH), `noDrop` is for WRITE_BACK_CTL. -/
structure WEntry (Addr Lock : Type) (w : ℕ) where
  addr : Addr
  value : BitVec w
  mask : BitVec w
  version : ℕ
  lock : Lock
  next : Option ℕ
  noDrop : Bool
  deriving DecidableEq

/-- `w_set_t`; `nb_entries` is the length of `entries`, `size` the capacity of the array. -/
structure WSet (Addr Lock : Type) (w : ℕ) where
  entries : List (WEntry Addr Lock w)
  size : ℕ
  nbAcquired : ℕ

/-- Auxiliary: how far an attempt is. `aborting`: it is rolled back. Of a commit, `checked`: it has seen
no irrevocable transaction; `ticket t`: it has drawn the timestamp `t`; `installing t`: it can no
longer fail. -/
inductive Phase
  | running
  | aborting
  | checked
  | ticket (t : ℕ)
  | installing (t : ℕ)
  deriving DecidableEq

/-- `stm_tx_t`. The bits 0x07 of `irrevocable` say how far the thread is, and the bit 0x08 that it asks for
serial mode. `trace` are the events of the attempt, `calls` the callbacks that have run, and `aborts` why
the attempts so far were given up. -/
structure StmTx (Addr Lock : Type) (w : ℕ) where
  attr : Attr
  status : Status
  start : ℕ
  end_ : ℕ
  rSet : List (REntry Lock)
  wSet : WSet Addr Lock w
  irrevocable : ℕ
  nesting : ℕ
  cLock : Option Lock
  statCommits : ℕ
  statAborts : ℕ
  statAbortsR : ℕ → ℕ
  calls : List ℕ
  aborts : List Reason
  phase : Phase
  trace : Trace Addr w

/-- The build options, the callbacks registered, and the map from addresses to locks
(`GET_LOCK`). A callback is known by its number and has no effect on the transaction, but that an abort
callback may call `stm_set_irrevocable(0)` for the next attempt: `abortRequests` says when, given the reason
of the abort and the number of aborts so far, if there is such a callback. -/
structure Config (Addr Lock : Type) where
  design : Design
  cm : Cm
  irrevocableEnabled : Bool
  noDuplicatesInRwSets : Bool
  versionMax : ℕ
  startCb : List ℕ
  precommitCb : List ℕ
  commitCb : List ℕ
  abortCb : List ℕ
  abortRequests : Option (ℕ → ℕ → Bool)
  getLock : Addr → Lock

/-- The shared memory: `_tinystm`, the data words and the descriptors. `saved` is auxiliary, the
word that the owner of a lock overwrote, and so are `commits`, the transactions committed so far, and
`overrun`, that a rollback has read beyond the entries of a write set. -/
structure State (Tid Addr Lock : Type) (w : ℕ) where
  mem : Mem Addr w
  locks : Lock → LockWord Tid
  clock : ℕ
  irrevocable : ℕ
  txs : Tid → StmTx Addr Lock w
  saved : Lock → ℕ
  commits : History Tid Addr w
  overrun : Bool

section
variable {Tid Addr Lock : Type} {w : ℕ}

/-- The design of a transaction: `DESIGN == MODULAR` selects it by `attr.id`. -/
def Config.designOf (cfg : Config Addr Lock) (attr : Attr) : Design :=
  match cfg.design with
  | .modular => if attr.id = 1 then .writeBackCtl else if attr.id = 2 then .writeThrough
    else .writeBackEtl
  | d => d

/-- The design of a transaction is one of the three. -/
theorem Config.designOf_ne_modular (cfg : Config Addr Lock) (attr : Attr) :
    cfg.designOf attr ≠ .modular := by
  unfold Config.designOf
  split
  · split
    · decide
    · split <;> decide
  · assumption

/-- An abort callback calls `stm_set_irrevocable`. Without `IRREVOCABLE_ENABLED` that would end the
process. -/
def Config.requests (cfg : Config Addr Lock) (reason aborts : ℕ) : Bool :=
  match cfg.abortRequests with
  | none => false
  | some f => cfg.irrevocableEnabled && f reason aborts

/-- The address of entry `i` of thread `q` falls inside the write set of thread `p`, whose
descriptor is `tx`. -/
def StmTx.Owns [DecidableEq Tid] (tx : StmTx Addr Lock w) (p q : Tid) (i : ℕ) : Prop :=
  q = p ∧ i < tx.wSet.entries.length

instance [DecidableEq Tid] (tx : StmTx Addr Lock w) (p q : Tid) (i : ℕ) :
    Decidable (tx.Owns p q i) :=
  inferInstanceAs (Decidable (_ ∧ _))

/-- `stm_has_read`. -/
def stmHasRead [DecidableEq Lock] (tx : StmTx Addr Lock w) (lock : Lock) : Option (REntry Lock) :=
  tx.rSet.find? fun r => r.lock = lock

/-- `stm_has_written`: the index of the entry. -/
def stmHasWritten [DecidableEq Addr] (tx : StmTx Addr Lock w) (addr : Addr) : Option ℕ :=
  tx.wSet.entries.findIdx? fun e => e.addr = addr

/-- Where the search for an address in a chain of entries ends: at entry `i`, which holds it, or at
the last entry `i` of the chain, which has the version of all of them. -/
inductive ChainPos (Addr Lock : Type) (w : ℕ)
  | found (i : ℕ) (e : WEntry Addr Lock w)
  | last (i : ℕ) (version : ℕ)
  deriving DecidableEq

/-- The search through the chain of entries that starts at `i`; a chain has no more links than the
write set has entries, which is the number given. -/
def chainFind [DecidableEq Addr] (es : List (WEntry Addr Lock w)) (addr : Addr) :
    ℕ → ℕ → ChainPos Addr Lock w
  | 0, i => .last i 0
  | n + 1, i =>
    match es[i]? with
    | none => .last i 0
    | some e =>
      if e.addr = addr then .found i e
      else match e.next with
        | none => .last i e.version
        | some j => chainFind es addr n j

/-- A new entry at the end of the write set, linked from entry `prev`. -/
def WSet.push (ws : WSet Addr Lock w) (prev : Option ℕ) (e : WEntry Addr Lock w) :
    WSet Addr Lock w :=
  let n := ws.entries.length
  let linked := match prev with
    | none => ws.entries
    | some j => ws.entries.modify j fun f => { f with next := some n }
  { ws with entries := linked ++ [e] }

/-- Entry `i` is changed by `f`. -/
def WSet.modify (ws : WSet Addr Lock w) (i : ℕ) (f : WEntry Addr Lock w → WEntry Addr Lock w) :
    WSet Addr Lock w :=
  { ws with entries := ws.entries.modify i f }

/-- The descriptor of `p` is changed by `f`. -/
def State.setTx [DecidableEq Tid] (s : State Tid Addr Lock w) (p : Tid)
    (f : StmTx Addr Lock w → StmTx Addr Lock w) : State Tid Addr Lock w :=
  { s with txs := Function.update s.txs p (f (s.txs p)) }

end

end TinyStm
