import TinyStm.Conc.Zoom
import TinyStm.Modules.Memory

/-!
# Regions and memory blocks

`tanger_stm_loadregion`, `tanger_stm_storeregion` and `tanger_stm_realloc` of `abi/dtmc/tanger.c`,
called in a transaction and built without `STACK_CHECK`. The words that a transaction accesses may not
have been written to memory yet, so the memory that plain accesses read and write (`raw`) stands beside
the memory of words.
-/

namespace TinyStm

/-- A thread: its transaction, the memory that it accesses without it, and its callbacks. -/
structure TangerState (σ F : Type) (z : WordSize) where
  tx : σ
  raw : ByteMem
  icb : ModCbInfo F z

section
variable {σ F α : Type} {z : WordSize} (o : ByteOrder) (W : WordMemory σ z)

/-- A transactional access. -/
def inTx (c : Prog σ α) : Prog (TangerState σ F z) α :=
  c.zoom TangerState.tx fun t s => { s with tx := t }

/-- `tanger_stm_loadregion`. -/
def tangerStmLoadregion (src bytes dest : ℕ) : Prog (TangerState σ F z) Unit := do
  let buf ← inTx (stmLoadBytes o W src bytes)
  .modify fun s => { s with raw := s.raw.overlay dest buf }

/-- `tanger_stm_storeregion`: the arguments of `stm_store_bytes` are an address and a buffer. -/
def tangerStmStoreregion (src bytes dest : ℕ) : Prog (TangerState σ F z) Unit := do
  let buf ← .read fun s => s.raw.slice dest bytes
  inTx (stmStoreBytes o W src buf)

end

section
variable {σ F : Type} (cfg : CbConfig) (o : ByteOrder) (W : WordMemory σ cfg.word)

/-- A request to the module that manages callbacks; a fault is an error of the process. -/
def callbacks (f : ModCbInfo F cfg.word → Except CbFault (ModCbInfo F cfg.word)) :
    Prog (TangerState σ F cfg.word) Unit := do
  let ok ← .atomic fun s =>
    match f s.icb with
    | .ok icb => (true, { s with icb := icb })
    | .error _ => (false, s)
  if ok then pure () else .jump

/-- `_ITM_malloc`, if the allocator returns `addr`. -/
def itmMalloc (size addr : Word cfg.word) : Prog (TangerState σ F cfg.word) (Word cfg.word) := do
  callbacks cfg (intStmMalloc cfg size addr)
  pure addr

/-- The mask-0 stores of a call, none of which aborts the transaction. -/
def CbStores.quiet : CbStores := ⟨false, fun _ => false, 0⟩

/-- `_ITM_free`, as long as no store aborts the transaction; `block_size` is `malloc_usable_size`, and the
option `NO_WRITE_ON_FREE`. -/
def itmFree (usable : Word cfg.word → Word cfg.word) (noWriteOnFree : Bool) (ptr : Word cfg.word) :
    Prog (TangerState σ F cfg.word) Unit :=
  callbacks cfg fun icb => do
    let r ← stmFree cfg .quiet ptr (if noWriteOnFree then 0 else usable ptr) icb
    pure r.icb

/-- Bytes are written to memory from the start of a block of `size` bytes on; it is an error if they do
not fit. -/
def writeBlock {z : WordSize} (start size : ℕ) (buf : List (BitVec 8)) :
    Prog (TangerState σ F z) Unit :=
  if buf.length ≤ size then .modify fun s => { s with raw := s.raw.overlay start buf } else .jump

/-- A block is copied to a new one and freed. -/
def reallocCopy (usable : Word cfg.word → Word cfg.word) (noWriteOnFree : Bool)
    (ptr size addr : Word cfg.word) : Prog (TangerState σ F cfg.word) (Word cfg.word) := do
  let p ← itmMalloc cfg size addr
  let buf ← inTx (stmLoadBytes o W ptr.toNat (usable ptr).toNat)
  writeBlock p.toNat (usable p).toNat buf
  itmFree cfg usable noWriteOnFree ptr
  pure p

/-- `tanger_stm_realloc`, if the allocator returns `addr`; `usable` is `malloc_usable_size`. -/
def tangerStmRealloc (usable : Word cfg.word → Word cfg.word) (noWriteOnFree : Bool)
    (ptr size addr : Word cfg.word) : Prog (TangerState σ F cfg.word) (Word cfg.word) :=
  if ptr = 0 then itmMalloc cfg size addr
  else if size = 0 then do
    itmFree cfg usable noWriteOnFree ptr
    pure 0
  else reallocCopy cfg o W usable noWriteOnFree ptr size addr

end

end TinyStm
