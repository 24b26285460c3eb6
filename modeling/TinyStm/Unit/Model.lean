import TinyStm.Conc.Pool
import TinyStm.Model.Types
import Mathlib.Data.Finset.Insert
import Mathlib.Data.Finset.Erase

/-!
# Unit loads and stores

`stm_unit_load` and `stm_unit_write` of `src/stm.c`, with `UNIT_TX`. Of the transactions that run beside
them only what they do to the lock array, the data words and the clock is kept, whatever their design: each of
these accesses is a call of its own, so a transaction is any sequence of them. The rollover of the clock,
for which all threads wait in the barrier, is one step, and the way of a unit store into the barrier, once it has
dropped its lock, is left out.
-/

namespace TinyStm.UnitTx

/-- A lock word: a version, the address of an entry of the write set of `p` which has the version `l`, or
`LOCK_UNIT`, which `p` has stored. -/
inductive Word (Tid : Type)
  | free (l : ℕ)
  | owned (p : Tid) (l : ℕ)
  | unit (p : Tid)
  deriving DecidableEq

/-- Auxiliary: a call of `stm_unit_write` that has taken the lock, and what the word was then. -/
structure Pending (Addr : Type) (w : ℕ) where
  addr : Addr
  value : BitVec w
  mask : BitVec w
  before : BitVec w
  deriving DecidableEq

/-- Auxiliary: a call of `stm_unit_write` that has released the lock with timestamp `version`, what the word
was then, and the timestamps that the lock had had. -/
structure Stored (Addr : Type) (w : ℕ) extends Pending Addr w where
  after : BitVec w
  version : ℕ
  earlier : List ℕ
  deriving DecidableEq

/-- The data words, the locks, the clock, and the timestamps that transactions have drawn. Auxiliary are the
locks that are not free, the timestamps that each lock has had since the clock was last rolled over, and the unit
stores. -/
structure State (Tid Addr Lock : Type) (w : ℕ) where
  mem : Addr → BitVec w
  locks : Lock → Word Tid
  clock : ℕ
  drawn : Tid → ℕ
  held : Finset Lock
  versions : Lock → List ℕ
  pending : Tid → Option (Pending Addr w)
  stores : List (Stored Addr w)

abbrev UProg (Tid Addr Lock : Type) (w : ℕ) := Prog (State Tid Addr Lock w)

variable {Tid Addr Lock : Type} {w : ℕ} [DecidableEq Tid] [DecidableEq Addr] [DecidableEq Lock]

/-- The lock becomes free, with the version `l`. -/
def State.release (s : State Tid Addr Lock w) (lock : Lock) (l : ℕ) : State Tid Addr Lock w :=
  { s with
    locks := Function.update s.locks lock (.free l)
    held := s.held.erase lock
    versions := Function.update s.versions lock (lockGetTimestamp l :: s.versions lock) }

/-- `ATOMIC_LOAD_ACQ(lock)`. -/
def loadLock (lock : Lock) : UProg Tid Addr Lock w (Word Tid) := .read (·.locks lock)

/-- The lock word at `restart_no_load`, if there is one, or else the one loaded at `restart`. -/
def loadLockOr (lock : Lock) : Option (Word Tid) → UProg Tid Addr Lock w (Word Tid)
  | none => loadLock lock
  | some l => pure l

/-- `ATOMIC_LOAD_ACQ(addr)`. -/
def loadWord (addr : Addr) : UProg Tid Addr Lock w (BitVec w) := .read (·.mem addr)

/-- `ATOMIC_STORE(addr, value)`. -/
def storeWord (addr : Addr) (value : BitVec w) : UProg Tid Addr Lock w Unit :=
  .modify fun s => { s with mem := Function.update s.mem addr value }

/-- `ATOMIC_CAS_FULL(lock, l, LOCK_UNIT)` of a store to `addr`. -/
def casUnit (p : Tid) (lock : Lock) (l : ℕ) (addr : Addr) (value mask : BitVec w) :
    UProg Tid Addr Lock w Bool :=
  .atomic fun s =>
    if s.locks lock = .free l then
      (true, { s with
        locks := Function.update s.locks lock (.unit p)
        held := insert lock s.held
        pending := Function.update s.pending p (some ⟨addr, value, mask, s.mem addr⟩) })
    else (false, s)

/-- `FETCH_INC_CLOCK + 1`. -/
def fetchIncClock : UProg Tid Addr Lock w ℕ :=
  .atomic fun s => (s.clock + 1, { s with clock := s.clock + 1 })

/-- `ATOMIC_STORE_REL(lock, LOCK_SET_TIMESTAMP(l))` of a unit store. -/
def dropUnit (p : Tid) (lock : Lock) (l : ℕ) : UProg Tid Addr Lock w Unit :=
  .modify fun s => { s.release lock (lockSetTimestamp l) with
    pending := Function.update s.pending p none
    stores := match s.pending p with
      | none => s.stores
      | some c => ⟨c, s.mem c.addr, l, s.versions lock⟩ :: s.stores }

/-- `stm_unit_load`. The loop's argument is the lock word at `restart_no_load`, if there is one; the result is
the value and `*timestamp`. -/
def stmUnitLoad (getLock : Addr → Lock) (addr : Addr) (timestamp : Option ℕ) :
    UProg Tid Addr Lock w (BitVec w × Option ℕ) :=
  let lock := getLock addr
  .iterate (none : Option (Word Tid)) fun l? => do
    let l ← loadLockOr lock l?
    match l with
    | .owned _ _ | .unit _ => pure (.inl none)
    | .free l => do
      let value ← loadWord addr
      let l2 ← loadLock lock
      if l2 ≠ .free l then pure (.inl (some l2))
      else pure (.inr (value, timestamp.map fun _ => lockGetTimestamp l))

/-- `stm_unit_write`, with `*timestamp` or nothing if the pointer is `NULL`. The result is what is returned, and
`*timestamp`. The word is replaced as a whole: the mask is not used. -/
def stmUnitWrite (getLock : Addr → Lock) (p : Tid) (addr : Addr) (value mask : BitVec w)
    (timestamp : Option ℕ) : UProg Tid Addr Lock w (Bool × Option ℕ) :=
  let lock := getLock addr
  .iterate () fun _ => do
    let l ← loadLock lock
    match l with
    | .owned _ _ | .unit _ => pure (.inl ())
    | .free l =>
      if timestamp.any (lockGetTimestamp l > ·) then pure (.inr (false, some (lockGetTimestamp l)))
      else do
        let ok ← casUnit p lock l addr value mask
        if ok then do
          storeWord addr value
          let l ← fetchIncClock
          dropUnit p lock l
          pure (.inr (true, timestamp.map fun _ => l))
        else pure (.inl ())

/-- `stm_unit_store`. -/
def stmUnitStore (getLock : Addr → Lock) (p : Tid) (addr : Addr) (value : BitVec w)
    (timestamp : Option ℕ) : UProg Tid Addr Lock w (Bool × Option ℕ) :=
  stmUnitWrite getLock p addr value (BitVec.allOnes w) timestamp

/-- `stm_unit_store2`. -/
def stmUnitStore2 (getLock : Addr → Lock) (p : Tid) (addr : Addr) (value mask : BitVec w)
    (timestamp : Option ℕ) : UProg Tid Addr Lock w (Bool × Option ℕ) :=
  stmUnitWrite getLock p addr value mask timestamp

/-! ## Calls -/

/-- What a thread may do: unit loads and stores, and the accesses of a transaction. It acquires a lock, stores to
a word, draws a timestamp, drops a lock with the timestamp that it has drawn, with the old version, or, in
write-through, with the next incarnation number. -/
inductive Cmd (Addr Lock : Type) (w : ℕ)
  | unitLoad (addr : Addr) (timestamp : Option ℕ)
  | unitStore (addr : Addr) (value : BitVec w) (timestamp : Option ℕ)
  | unitStore2 (addr : Addr) (value mask : BitVec w) (timestamp : Option ℕ)
  | acquire (lock : Lock)
  | store (addr : Addr) (value : BitVec w)
  | draw
  | commit (lock : Lock)
  | restore (lock : Lock)
  | reincarnate (lock : Lock)
  | rollover

/-- A transaction acquires a lock. -/
def State.acquire (s : State Tid Addr Lock w) (p : Tid) (lock : Lock) : State Tid Addr Lock w :=
  match s.locks lock with
  | .free l =>
    { s with locks := Function.update s.locks lock (.owned p l), held := insert lock s.held }
  | .owned _ _ | .unit _ => s

/-- A transaction stores to a word whose lock it owns. -/
def State.store (getLock : Addr → Lock) (s : State Tid Addr Lock w) (p : Tid) (addr : Addr)
    (value : BitVec w) : State Tid Addr Lock w :=
  match s.locks (getLock addr) with
  | .owned q _ => if q = p then { s with mem := Function.update s.mem addr value } else s
  | .free _ | .unit _ => s

/-- A transaction drops a lock that it owns: the version is `f` of the old one. -/
def State.drop (s : State Tid Addr Lock w) (p : Tid) (lock : Lock) (f : ℕ → ℕ) : State Tid Addr Lock w :=
  match s.locks lock with
  | .owned q l => if q = p then s.release lock (f l) else s
  | .free _ | .unit _ => s

/-- The next incarnation number, if there is one. -/
def nextIncarnation (l : ℕ) : ℕ :=
  if lockGetIncarnation l + 1 > incarnationMax then l else lockUpdIncarnation l (lockGetIncarnation l + 1)

/-- `rollover_clock`, when no lock is held. -/
def State.rollover (s : State Tid Addr Lock w) : State Tid Addr Lock w :=
  if s.held = ∅ then { s with locks := fun _ => .free 0, clock := 0, drawn := fun _ => 0, versions := fun _ => [0] }
  else s

/-- The program of a call. -/
def exec (getLock : Addr → Lock) (p : Tid) : Cmd Addr Lock w → UProg Tid Addr Lock w Unit
  | .unitLoad addr timestamp => do
    let _ ← stmUnitLoad getLock addr timestamp
  | .unitStore addr value timestamp => do
    let _ ← stmUnitStore getLock p addr value timestamp
  | .unitStore2 addr value mask timestamp => do
    let _ ← stmUnitStore2 getLock p addr value mask timestamp
  | .acquire lock => .modify (·.acquire p lock)
  | .store addr value => .modify (·.store getLock p addr value)
  | .draw => .modify fun s => { s with
    clock := s.clock + 1, drawn := Function.update s.drawn p (s.clock + 1) }
  | .commit lock => .modify fun s => s.drop p lock fun _ => lockSetTimestamp (s.drawn p)
  | .restore lock => .modify (·.drop p lock id)
  | .reincarnate lock => .modify (·.drop p lock nextIncarnation)
  | .rollover => .modify (·.rollover)

/-- Every call is admitted. -/
def Called (_ : Tid) (_ : Cmd Addr Lock w) (_ : State Tid Addr Lock w) : Prop := True

instance (p : Tid) (cmd : Cmd Addr Lock w) (s : State Tid Addr Lock w) : Decidable (Called p cmd s) :=
  .isTrue trivial

/-- The state after `stm_init`, with the memory `m₀`. -/
def State.init (m₀ : Addr → BitVec w) : State Tid Addr Lock w where
  mem := m₀
  locks _ := .free 0
  clock := 0
  drawn _ := 0
  held := ∅
  versions _ := [0]
  pending _ := none
  stores := []

end TinyStm.UnitTx
