import TinyStm.Conc.Pool

/-!
# Commits in the order of the starts

`src/mod_order.c`, with the parts of `int_stm_start`, `int_stm_commit`, `stm_rollback` and of the conflicts of
`CM == CM_MODULAR` that change the status of a transaction or call the module. What a transaction reads and
writes is left out: it may have a conflict with any other one, it may abort at any time, and its
validation may fail. A `stm_word_t` is a natural number: fewer than 2^64 transactions are started.
-/

namespace TinyStm.Order

/-- The status of a transaction, without irrevocability. -/
inductive TxStatus
  | idle
  | active
  | committed
  | aborted
  | committing
  | aborting
  | killed
  deriving DecidableEq

/-- `tx->status` with its counter, `tx->nesting`, and what the module has stored with
`stm_set_specific`. -/
structure OrderTx where
  status : TxStatus
  counter : ℕ
  nesting : ℕ
  specific : ℕ
  deriving DecidableEq

/-- A transaction that has committed: its thread, the order number that it drew, and whether its
`mod_order_on_commit` has run. -/
structure Committed (Tid : Type) where
  tid : Tid
  number : Option ℕ
  ran : Bool
  deriving DecidableEq

/-- `mod_order_ts_next`, `mod_order_ts_commit` and the descriptors. Auxiliary are the transactions that have
committed, the last one first, and the numbers that the others have drawn. -/
structure OrderState (Tid : Type) where
  tsNext : ℕ
  tsCommit : ℕ
  txs : Tid → OrderTx
  commits : List (Committed Tid)
  drawn : Tid → Option ℕ

abbrev OProg (Tid : Type) := Prog (OrderState Tid)

variable {Tid : Type} [DecidableEq Tid]

/-- The descriptor of `p` is changed by `f`. -/
def OrderState.setTx (s : OrderState Tid) (p : Tid) (f : OrderTx → OrderTx) : OrderState Tid :=
  { s with txs := Function.update s.txs p (f (s.txs p)) }

def modifyTx (p : Tid) (f : OrderTx → OrderTx) : OProg Tid Unit := .modify (·.setTx p f)

/-- `SET_STATUS`. -/
def OrderTx.setStatus (v : TxStatus) (tx : OrderTx) : OrderTx := { tx with status := v }

/-- `UPDATE_STATUS`. -/
def OrderTx.updateStatus (v : TxStatus) (tx : OrderTx) : OrderTx :=
  { tx with status := v, counter := tx.counter + 1 }

/-- `ATOMIC_CAS_FULL(&tx->status, t, …)` with the same counter. -/
def casStatus (q : Tid) (t : TxStatus × ℕ) (v : TxStatus) : OProg Tid Bool :=
  .atomic fun s =>
    if ((s.txs q).status, (s.txs q).counter) = t then (true, s.setTx q (·.setStatus v)) else (false, s)

omit [DecidableEq Tid] in
/-- `tx->status`. -/
def readStatus (q : Tid) : OProg Tid (TxStatus × ℕ) :=
  .read fun s => ((s.txs q).status, (s.txs q).counter)

/-! ## The module -/

/-- `mod_order_on_start`. -/
def modOrderOnStart (p : Tid) : OProg Tid Unit := do
  let ts ← .atomic fun s =>
    (s.tsNext, { s with tsNext := s.tsNext + 1, drawn := Function.update s.drawn p (some s.tsNext) })
  modifyTx p fun tx => { tx with specific := ts }

omit [DecidableEq Tid] in
/-- `mod_order_on_precommit`. -/
def modOrderOnPrecommit (p : Tid) : OProg Tid Unit := do
  let myTs ← .read fun s => (s.txs p).specific
  .iterate () fun _ => do
    let currentTs ← .read (·.tsCommit)
    let t ← readStatus p
    if t.1 = .killed then pure (.inr ())
    else if currentTs ≠ myTs then pure (.inl ())
    else pure (.inr ())

/-- Auxiliary: the `mod_order_on_commit` of the last transaction of `p` has run. -/
def markRan (p : Tid) : List (Committed Tid) → List (Committed Tid)
  | [] => []
  | c :: cs => if c.tid = p then { c with ran := true } :: cs else c :: markRan p cs

/-- `mod_order_on_commit`. -/
def modOrderOnCommit (p : Tid) : OProg Tid Unit :=
  .modify fun s => { s with tsCommit := s.tsCommit + 1, commits := markRan p s.commits }

/-! ## Transactions -/

/-- `int_stm_prepare`. -/
def intStmPrepare (p : Tid) : OProg Tid Unit := modifyTx p (·.updateStatus .active)

/-- The first step of `stm_rollback`: a transaction that has not been killed is aborting now. -/
def setAborting (p : Tid) : OProg Tid Unit := do
  let t ← readStatus p
  if t.1 = .active then do
    let _ ← casStatus p t .aborting
    pure ()
  else pure ()

/-- `stm_rollback`: a transaction that is retried jumps back to its start. -/
def stmRollback (p : Tid) (noRetry : Bool) : OProg Tid Unit := do
  setAborting p
  modifyTx p (·.setStatus .aborted)
  modifyTx p fun tx => { tx with nesting := 1 }
  if noRetry then
    .modify fun s =>
      { s.setTx p fun tx => { tx with nesting := 0 } with drawn := Function.update s.drawn p none }
  else do
    intStmPrepare p
    .jump

/-- `int_stm_start`. -/
def intStmStart (p : Tid) : OProg Tid Unit := do
  let nesting ← .atomic fun s =>
    ((s.txs p).nesting, s.setTx p fun tx => { tx with nesting := tx.nesting + 1 })
  if nesting > 0 then pure ()
  else do
    intStmPrepare p
    modOrderOnStart p

/-- `int_stm_commit`. `valid` is the outcome of the validation, if there is one. -/
def intStmCommit (p : Tid) (valid : Bool) : OProg Tid Unit := do
  let nesting ← .atomic fun s =>
    ((s.txs p).nesting - 1, s.setTx p fun tx => { tx with nesting := tx.nesting - 1 })
  if nesting > 0 then pure ()
  else do
    modOrderOnPrecommit p
    let t ← readStatus p
    if t.1 = .killed then stmRollback p false
    else do
      let ok ← casStatus p t .committing
      if ok then
        if valid then do
          .modify fun s => { s.setTx p (·.setStatus .committed) with
            commits := ⟨p, s.drawn p, false⟩ :: s.commits
            drawn := Function.update s.drawn p none }
          modOrderOnCommit p
        else stmRollback p false
      else stmRollback p false

/-- `stm_kill`. The result is whether `q` has been killed. -/
def stmKill (q : Tid) (t : TxStatus × ℕ) : OProg Tid Bool :=
  match t.1 with
  | .idle | .committed | .aborted | .killed => pure false
  | .committing | .aborting => .iterate () fun _ => do
    let t' ← readStatus q
    pure (if t' = t then .inl () else .inr false)
  | .active => casStatus q t .killed

/-- A conflict with `q`, decided by `mod_order_cm`. -/
def onConflict (p q : Tid) : OProg Tid Unit := do
  let t ← readStatus q
  if t.1 = .killed then pure ()
  else do
    let own ← readStatus p
    if own.1 = .killed then stmRollback p false
    else do
      let myOrder ← .read fun s => (s.txs p).specific
      let otherOrder ← .read fun s => (s.txs q).specific
      if myOrder < otherOrder then do
        let _ ← stmKill q t
        pure ()
      else stmRollback p false

/-- What a thread does. -/
inductive OrderCall (Tid : Type)
  | start
  | conflict (q : Tid)
  | abort (noRetry : Bool)
  | commit (valid : Bool)

def OrderCall.prog (p : Tid) : OrderCall Tid → OProg Tid Unit
  | .start => intStmStart p
  | .conflict q => onConflict p q
  | .abort noRetry => stmRollback p noRetry
  | .commit valid => intStmCommit p valid

/-- A transaction may start at any time; only a transaction has conflicts with other ones, aborts and
commits. -/
def OrderCall.Admitted (p : Tid) (k : OrderCall Tid) (s : OrderState Tid) : Prop :=
  match k with
  | .start => True
  | .conflict q => 0 < (s.txs p).nesting ∧ q ≠ p
  | .abort _ | .commit _ => 0 < (s.txs p).nesting

/-- Before any thread has started a transaction. -/
def OrderState.init (Tid : Type) : OrderState Tid where
  tsNext := 0
  tsCommit := 0
  txs := fun _ => ⟨.idle, 0, 0, 0⟩
  commits := []
  drawn := fun _ => none

end TinyStm.Order
