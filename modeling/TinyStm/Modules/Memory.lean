import Mathlib.Logic.Function.Basic
import TinyStm.Model.Wrappers

/-!
# Callbacks and memory management

`src/mod_cb_mem.c`. A transaction registers functions to be called when it commits or aborts; memory
that it allocates is freed by an abort, and memory that it frees is disposed of by its commit. The
allocator chooses the addresses of the blocks, and `realloc` to the size 0 may return `NULL` or not.

A call of `stm_free2` overwrites the block by stores with an empty mask. Each of them may abort the
transaction, whose callbacks for an abort are then run. If the transaction is retried, control does not
come back to the call; if it has the attribute `no_retry`, the store returns and the call goes on. Which
of the stores abort is up to the other threads, so it is a parameter of the call here.
-/

namespace TinyStm

/-- The build options, whether the collector is used, and whether `realloc` to the size 0 returns
`NULL`. -/
structure CbConfig where
  word : WordSize
  epochGc : Bool
  useGc : Bool
  reallocNull : Bool

/-- The functions that are registered. -/
inductive CbFunction (F : Type)
  | user (f : F)
  | free
  | epochFree

/-- `mod_cb_entry_t`. -/
structure CbEntry (F : Type) (z : WordSize) where
  f : CbFunction F
  arg : Word z

/-- An array of entries of `mod_cb_info_t`: its size and the number of entries are of type
`unsigned short`, and `allocated` is the number of entries that there is memory for. -/
structure CbArray (F : Type) (z : WordSize) where
  size : BitVec 16
  nb : BitVec 16
  allocated : ℕ
  cells : ℕ → CbEntry F z

/-- `mod_cb_info_t`, and the requests that the module makes to the allocator and to the transaction. -/
structure ModCbInfo (F : Type) (z : WordSize) where
  commit : CbArray F z
  abort : CbArray F z
  mallocs : List (Word z × Word z)
  callocs : List (Word z × Word z × Word z)
  stores : List (Word z)

/-- How a call may go wrong: the process ends, or memory outside of an array is written. -/
inductive CbFault
  | exit
  | outside

/-- What a callback does. -/
inductive CbEvent (F : Type) (z : WordSize)
  | call (f : F) (arg : Word z)
  | free (addr : Word z)
  | gcFree (addr : Word z) (epoch : ℕ)

variable {F : Type} (cfg : CbConfig)

/-! ## Registration -/

/-- `size *= 2` and `xrealloc`. -/
def CbArray.grow (c : CbArray F cfg.word) : Except CbFault (CbArray F cfg.word) :=
  if c.size * 2 = 0 ∧ cfg.reallocNull then .error .exit
  else .ok { c with size := c.size * 2, allocated := (c.size * 2).toNat }

/-- The array has room for one more entry, as far as it knows. -/
def CbArray.reserve (c : CbArray F cfg.word) : Except CbFault (CbArray F cfg.word) :=
  if c.nb ≥ c.size then c.grow cfg else .ok c

/-- An entry is written behind the last one. -/
def CbArray.put {z : WordSize} (c : CbArray F z) (e : CbEntry F z) : Except CbFault (CbArray F z) :=
  if c.nb.toNat < c.allocated then
    .ok { c with cells := Function.update c.cells c.nb.toNat e, nb := c.nb + 1 }
  else .error .outside

/-- An entry is added. -/
def CbArray.add (c : CbArray F cfg.word) (e : CbEntry F cfg.word) :
    Except CbFault (CbArray F cfg.word) := do
  let c ← c.reserve cfg
  c.put e

/-- `mod_cb_add_on_abort`. -/
def modCbAddOnAbort (e : CbEntry F cfg.word) (icb : ModCbInfo F cfg.word) :
    Except CbFault (ModCbInfo F cfg.word) := do
  let abort ← icb.abort.add cfg e
  pure { icb with abort := abort }

/-- `mod_cb_add_on_commit`. -/
def modCbAddOnCommit (e : CbEntry F cfg.word) (icb : ModCbInfo F cfg.word) :
    Except CbFault (ModCbInfo F cfg.word) := do
  let commit ← icb.commit.add cfg e
  pure { icb with commit := commit }

/-- `stm_on_abort`. -/
def stmOnAbort (f : F) (arg : Word cfg.word) (icb : ModCbInfo F cfg.word) :
    Except CbFault (ModCbInfo F cfg.word) := modCbAddOnAbort cfg ⟨.user f, arg⟩ icb

/-- `stm_on_commit`. -/
def stmOnCommit (f : F) (arg : Word cfg.word) (icb : ModCbInfo F cfg.word) :
    Except CbFault (ModCbInfo F cfg.word) := modCbAddOnCommit cfg ⟨.user f, arg⟩ icb

/-! ## Memory -/

/-- The lowest bits of an address, 3 or 7. -/
def WordSize.mask (z : WordSize) : Word z := BitVec.ofNat _ (z.bytes - 1)

/-- The number of these bits. -/
def WordSize.shift : WordSize → ℕ
  | .four => 2
  | .eight => 3

/-- `size` rounded up to whole words. -/
def roundUp {z : WordSize} (size : Word z) : Word z := (size + z.mask) &&& ~~~z.mask

/-- `int_stm_malloc`, if `xmalloc` returns `addr`. -/
def intStmMalloc (size addr : Word cfg.word) (icb : ModCbInfo F cfg.word) :
    Except CbFault (ModCbInfo F cfg.word) :=
  modCbAddOnAbort cfg ⟨.free, addr⟩
    { icb with mallocs := (roundUp size, addr) :: icb.mallocs }

/-- `int_stm_calloc`, if `xcalloc` returns `addr`. -/
def intStmCalloc (nm size addr : Word cfg.word) (icb : ModCbInfo F cfg.word) :
    Except CbFault (ModCbInfo F cfg.word) :=
  modCbAddOnAbort cfg ⟨.free, addr⟩
    { icb with callocs := (nm, roundUp size, addr) :: icb.callocs }

/-- A number of bytes as a number of words. -/
def toWords {z : WordSize} (size : Word z) : Word z := (size + z.mask) >>> z.shift

/-- `while (size-- > 0) stm_store2_tx(tx, a++, 0, 0)`: the addresses. -/
def zeroStores {z : WordSize} (a : Word z) : ℕ → List (Word z)
  | 0 => []
  | size + 1 => a :: zeroStores (a + BitVec.ofNat _ z.bytes) size

/-- The addresses of the mask-0 stores of `int_stm_free2`. -/
def freeStores {z : WordSize} (addr idx size : Word z) : List (Word z) :=
  if size > 0 then
    zeroStores (addr + toWords idx * BitVec.ofNat _ z.bytes) (toWords size).toNat
  else []

/-! ## The end of a transaction -/

/-- An entry is called; `epoch_free` reads the clock. -/
def CbEntry.run (clock : ℕ) (e : CbEntry F cfg.word) : CbEvent F cfg.word :=
  match e.f with
  | .user f => .call f e.arg
  | .free => .free e.arg
  | .epochFree => if cfg.useGc then .gcFree e.arg clock else .free e.arg

/-- `while (nb > 0) { nb--; entries[nb].f(entries[nb].arg); }`. -/
def runCells (clock : ℕ) (cells : ℕ → CbEntry F cfg.word) : ℕ → List (CbEvent F cfg.word)
  | 0 => []
  | nb + 1 => (cells nb).run cfg clock :: runCells clock cells nb

/-- `mod_cb_on_commit`. -/
def modCbOnCommit (clock : ℕ) (icb : ModCbInfo F cfg.word) :
    List (CbEvent F cfg.word) × ModCbInfo F cfg.word :=
  (runCells cfg clock icb.commit.cells icb.commit.nb.toNat,
    { icb with commit := { icb.commit with nb := 0 }, abort := { icb.abort with nb := 0 } })

/-- `mod_cb_on_abort`. -/
def modCbOnAbort (clock : ℕ) (icb : ModCbInfo F cfg.word) :
    List (CbEvent F cfg.word) × ModCbInfo F cfg.word :=
  (runCells cfg clock icb.abort.cells icb.abort.nb.toNat,
    { icb with abort := { icb.abort with nb := 0 }, commit := { icb.commit with nb := 0 } })

/-! ## Blocks that are freed -/

/-- Where a call leaves the attempt: it is under way, or it has aborted and the call has returned, or
control has gone back to the start of the transaction. -/
inductive CbPoint
  | active
  | aborted
  | restarted
  deriving DecidableEq

/-- What a call leaves: the callbacks that it has run, the lists, and the point of the attempt. -/
structure CbResult (F : Type) (z : WordSize) where
  events : List (CbEvent F z)
  icb : ModCbInfo F z
  point : CbPoint

/-- What a transaction makes of the mask-0 stores of a call: whether it is retried when one of them
aborts it, which of them do, and the clock that its callbacks read then. -/
structure CbStores where
  noRetry : Bool
  aborts : ℕ → Bool
  clock : ℕ

/-- `stm_store2_tx(tx, a, 0, 0)`, the store number `i` of the call. -/
def stmStore2 (tx : CbStores) (i : ℕ) (a : Word cfg.word) (r : CbResult F cfg.word) :
    CbResult F cfg.word :=
  let icb := { r.icb with stores := r.icb.stores ++ [a] }
  if tx.aborts i then
    let (events, icb) := modCbOnAbort cfg tx.clock icb
    ⟨r.events ++ events, icb, if tx.noRetry then .aborted else .restarted⟩
  else { r with icb := icb }

/-- The loop of the mask-0 stores, which a rollback leaves if the transaction is retried. -/
def storeZeros (tx : CbStores) : List (Word cfg.word) → ℕ → CbResult F cfg.word →
    CbResult F cfg.word
  | [], _, r => r
  | a :: as, i, r =>
    let r := stmStore2 cfg tx i a r
    if r.point = .restarted then r else storeZeros tx as (i + 1) r

/-- `int_stm_free2`. -/
def intStmFree2 (tx : CbStores) (addr idx size : Word cfg.word) (icb : ModCbInfo F cfg.word) :
    Except CbFault (CbResult F cfg.word) := do
  let r := storeZeros cfg tx (freeStores addr idx size) 0 ⟨[], icb, .active⟩
  if r.point = .restarted then pure r
  else do
    let icb ← modCbAddOnCommit cfg ⟨if cfg.epochGc then .epochFree else .free, addr⟩ r.icb
    pure { r with icb := icb }

/-- `stm_free`. -/
def stmFree (tx : CbStores) (addr size : Word cfg.word) (icb : ModCbInfo F cfg.word) :
    Except CbFault (CbResult F cfg.word) := intStmFree2 cfg tx addr 0 size icb

/-! ## The start of a thread -/

/-- `DEFAULT_CB_SIZE`. -/
def defaultCbSize : ℕ := 16

/-- A new array; what its memory holds is arbitrary. -/
def CbArray.new {z : WordSize} (junk : ℕ → CbEntry F z) : CbArray F z :=
  ⟨BitVec.ofNat 16 defaultCbSize, 0, defaultCbSize, junk⟩

/-- `mod_cb_on_thread_init`. -/
def modCbOnThreadInit {z : WordSize} (junk : ℕ → CbEntry F z) : ModCbInfo F z :=
  ⟨.new junk, .new junk, [], [], []⟩

end TinyStm
