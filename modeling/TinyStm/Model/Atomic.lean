import TinyStm.Conc.Prog
import TinyStm.Model.Types

/-!
# Atomic accesses

The accesses to the shared memory that the library performs, one atomic action each
(`src/atomic.h`, taken as sequentially consistent). The descriptor of a thread is read and written
by that thread only.
-/

namespace TinyStm

variable {Tid Addr Lock : Type} {w : ℕ} [DecidableEq Tid] [DecidableEq Addr] [DecidableEq Lock]

/-- Programs on the state of the library. -/
abbrev M (Tid Addr Lock : Type) (w : ℕ) := Prog (State Tid Addr Lock w)

/-- The descriptor of thread `p`. -/
def getTx (p : Tid) : M Tid Addr Lock w (StmTx Addr Lock w) :=
  .read (·.txs p)

/-- Thread-local assignments of thread `p`. -/
def modifyTx (p : Tid) (f : StmTx Addr Lock w → StmTx Addr Lock w) : M Tid Addr Lock w Unit :=
  .modify (·.setTx p f)

/-- `ATOMIC_LOAD` of a lock. -/
def loadLock (lock : Lock) : M Tid Addr Lock w (LockWord Tid) :=
  .read (·.locks lock)

/-- The lock word at `restart_no_load`, if there is one, or else the one loaded at `restart`. -/
def loadLockOr (lock : Lock) : Option (LockWord Tid) → M Tid Addr Lock w (LockWord Tid)
  | none => loadLock lock
  | some l => pure l

/-- `ATOMIC_STORE` of the version `l` to a lock. -/
def storeLock (lock : Lock) (l : ℕ) : M Tid Addr Lock w Unit :=
  .modify fun s => { s with locks := Function.update s.locks lock (.free l) }

/-- The last covered address in the write set drops the lock. -/
def dropLast (e : WEntry Addr Lock w) (l : ℕ) : M Tid Addr Lock w Unit :=
  if e.next = none then storeLock e.lock l else pure ()

/-- `ATOMIC_CAS_FULL(lock, l, LOCK_SET_ADDR_WRITE(w))` for entry `i` of thread `p`. -/
def casLock (p : Tid) (lock : Lock) (l i : ℕ) : M Tid Addr Lock w Bool :=
  .atomic fun s =>
    if s.locks lock = .free l then
      (true, { s with locks := Function.update s.locks lock (.owned p i)
                      saved := Function.update s.saved lock l })
    else (false, s)

/-- `ATOMIC_LOAD` of a data word. -/
def loadWord (addr : Addr) : M Tid Addr Lock w (BitVec w) :=
  .read (·.mem addr)

/-- `ATOMIC_STORE` to a data word. -/
def storeWord (addr : Addr) (x : BitVec w) : M Tid Addr Lock w Unit :=
  .modify fun s => { s with mem := Function.update s.mem addr x }

/-- `if (mask != 0) ATOMIC_STORE(addr, x)`. -/
def storeWordIf (addr : Addr) (x mask : BitVec w) : M Tid Addr Lock w Unit :=
  if mask ≠ 0#w then storeWord addr x else pure ()

/-- `GET_CLOCK`. -/
def getClock : M Tid Addr Lock w ℕ :=
  .read (·.clock)

/-- `FETCH_INC_CLOCK + 1`. -/
def fetchIncClock : M Tid Addr Lock w ℕ :=
  .atomic fun s => (s.clock + 1, { s with clock := s.clock + 1 })

/-- `FETCH_INC_CLOCK + 1` in a commit: the thread has drawn its timestamp. -/
def fetchTimestamp (p : Tid) : M Tid Addr Lock w ℕ :=
  .atomic fun s =>
    (s.clock + 1, { s with clock := s.clock + 1 }.setTx p
      fun tx => { tx with phase := .ticket (s.clock + 1) })

/-- `ATOMIC_LOAD(&_tinystm.irrevocable)`. -/
def loadIrrevocable : M Tid Addr Lock w ℕ :=
  .read (·.irrevocable)

/-- `ATOMIC_LOAD(&_tinystm.irrevocable)` in a commit: the check has passed if it is zero. -/
def checkIrrevocable (p : Tid) : M Tid Addr Lock w ℕ :=
  .atomic fun s =>
    (s.irrevocable, if s.irrevocable = 0 then s.setTx p fun tx => { tx with phase := .checked }
      else s)

/-- `ATOMIC_CAS_FULL(&_tinystm.irrevocable, 0, 1)`, and `tx->irrevocable++` if it succeeds. -/
def casIrrevocable (p : Tid) : M Tid Addr Lock w Bool :=
  .atomic fun s =>
    if s.irrevocable = 0 then
      (true, { s with irrevocable := 1 }.setTx p
        fun tx => { tx with irrevocable := tx.irrevocable + 1 })
    else (false, s)

/-- `ATOMIC_STORE(&_tinystm.irrevocable, 0)` and `tx->irrevocable = 0`. -/
def releaseIrrevocable (p : Tid) : M Tid Addr Lock w Unit :=
  .modify fun s => { s with irrevocable := 0 }.setTx p fun tx => { tx with irrevocable := 0 }

/-- Auxiliary: the commit of `p` with timestamp `t` can no longer fail. -/
def recordUpdate (p : Tid) (t : ℕ) : M Tid Addr Lock w Unit :=
  .modify fun s => { s with commits := ⟨p, t, true, (s.txs p).trace⟩ :: s.commits }.setTx p
    fun tx => { tx with phase := .installing t }

/-- Auxiliary: the attempt of `p` is rolled back. -/
def recordAbort (p : Tid) : M Tid Addr Lock w Unit :=
  modifyTx p fun tx => { tx with phase := .aborting }

/-- Auxiliary: the commit of `p`, whose write set is empty. It takes the place of `tx->end`, or of
the clock if it is irrevocable and has not kept `tx->end`. -/
def recordReadOnly (p : Tid) : M Tid Addr Lock w Unit :=
  .modify fun s => { s with commits := ⟨p, if (s.txs p).irrevocable = 0 then (s.txs p).end_
    else s.clock, false, (s.txs p).trace⟩ :: s.commits }

/-- Auxiliary: the event is part of the attempt if it is still active. -/
def record (p : Tid) (e : Event Addr w) : M Tid Addr Lock w Unit :=
  modifyTx p fun tx => if tx.status.isActive then { tx with trace := e :: tx.trace } else tx

/-- The registered callbacks run. -/
def runCallbacks (p : Tid) (cbs : List ℕ) : M Tid Addr Lock w Unit :=
  modifyTx p fun tx => { tx with calls := tx.calls ++ cbs }

end TinyStm
