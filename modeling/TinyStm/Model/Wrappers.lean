import TinyStm.Bytes.Flat
import TinyStm.Conc.Steps

/-!
# Typed accesses

The accesses to integers and to ranges of bytes of `src/wrappers.c`, over any memory of words with
`stm_load`, `stm_store` and `stm_store2`, and `TM_COPY_BYTES` of `abi/abi.c`. Addresses are natural
numbers; `junk` is what an uninitialised local variable holds. The functions for the other C types
convert their argument or result and call one of these.
-/

namespace TinyStm

/-- `sizeof(stm_word_t)` is 4 or 8. -/
inductive WordSize
  | four
  | eight
  deriving DecidableEq

/-- `sizeof(stm_word_t)`. -/
def WordSize.bytes : WordSize → ℕ
  | .four => 4
  | .eight => 8

/-- `stm_word_t`. -/
abbrev Word (z : WordSize) := BitVec (8 * z.bytes)

/-- A memory of words: what `stm_load`, `stm_store` and `stm_store2` do to the word at an aligned
address. -/
structure WordMemory (σ : Type) (z : WordSize) where
  load : ℕ → Prog σ (Word z)
  store : ℕ → Word z → Prog σ Unit
  store2 : ℕ → Word z → Word z → Prog σ Unit
  mem : σ → Mem ℕ (8 * z.bytes)
  load_ends : ∀ a s, z.bytes ∣ a →
    (load a).Ends (fun x t => x = mem s a ∧ mem t = mem s) (fun _ => False) s
  store_ends : ∀ a x s, z.bytes ∣ a →
    (store a x).Ends (fun _ t => mem t = Function.update (mem s) a x) (fun _ => False) s
  store2_ends : ∀ a x k s, z.bytes ∣ a →
    (store2 a x k).Ends (fun _ t => mem t = Function.update (mem s) a (BitVec.merge (mem s a) x k))
      (fun _ => False) s

variable {σ : Type} {z : WordSize} (o : ByteOrder) (W : WordMemory σ z)

/-- `addr & ~(sizeof(stm_word_t) - 1)`. -/
def alignDown (z : WordSize) (addr : ℕ) : ℕ := addr / z.bytes * z.bytes

/-! ## Ranges of bytes -/

/-- `for (; i < sizeof(stm_word_t) && size > 0; i++, size--) *buf++ = val.b[i]`. -/
def getLoop (val : Word z) : ℕ → ℕ → List (BitVec 8)
  | _, 0 => []
  | i, size + 1 => if i < z.bytes then o.byte i val :: getLoop val (i + 1) size else []

/-- Where a copy to a buffer stands: at the word `a`, with the bytes `buf` copied and `size` left. -/
structure LoadPos where
  a : ℕ
  buf : List (BitVec 8)
  size : ℕ

/-- The first bytes of `stm_load_bytes`. -/
def loadFirst (addr size : ℕ) : Prog σ LoadPos :=
  let i := addr % z.bytes
  if i ≠ 0 then do
    let val ← W.load (alignDown z addr)
    let buf := getLoop o val i size
    pure ⟨alignDown z addr + z.bytes, buf, size - buf.length⟩
  else pure ⟨addr, [], size⟩

/-- The full words of `stm_load_bytes`. -/
def loadWords (pos : LoadPos) : Prog σ LoadPos :=
  .iterate pos fun pos =>
    if pos.size ≥ z.bytes then do
      let val ← W.load pos.a
      pure (.inl ⟨pos.a + z.bytes, pos.buf ++ o.bytesOf val, pos.size - z.bytes⟩)
    else pure (.inr pos)

/-- The last bytes of `stm_load_bytes`. -/
def loadLast (pos : LoadPos) : Prog σ (List (BitVec 8)) :=
  if pos.size > 0 then do
    let val ← W.load pos.a
    pure (pos.buf ++ getLoop o val 0 pos.size)
  else pure pos.buf

/-- `stm_load_bytes`. -/
def stmLoadBytes (addr size : ℕ) : Prog σ (List (BitVec 8)) :=
  if size = 0 then pure []
  else do
    let pos ← loadFirst o W addr size
    let pos ← loadWords o W pos
    loadLast o W pos

/-- `for (; i < sizeof(stm_word_t) && size > 0; i++, size--) { mask.b[i] = 0xFF; val.b[i] = *buf++; }`:
the value, the mask and what is left of the buffer. -/
def putLoop : ℕ → List (BitVec 8) → Word z → Word z → Word z × Word z × List (BitVec 8)
  | _, [], val, mask => (val, mask, [])
  | i, b :: buf, val, mask =>
    if i < z.bytes then putLoop (i + 1) buf (o.setByte i b val) (o.setByte i 0xFF#8 mask)
    else (val, mask, b :: buf)

/-- The first bytes of `stm_store_bytes`: the next word and what is left of the buffer. -/
def storeFirst (addr : ℕ) (buf : List (BitVec 8)) : Prog σ (ℕ × List (BitVec 8)) :=
  let i := addr % z.bytes
  if i ≠ 0 then do
    let (val, mask, buf) := putLoop o i buf 0#_ 0#_
    W.store2 (alignDown z addr) val mask
    pure (alignDown z addr + z.bytes, buf)
  else pure (addr, buf)

/-- The full words of `stm_store_bytes`. -/
def storeWords (pos : ℕ × List (BitVec 8)) : Prog σ (ℕ × List (BitVec 8)) :=
  .iterate pos fun (a, buf) =>
    if buf.length ≥ z.bytes then do
      W.store a (o.ofBytes z.bytes (buf.take z.bytes))
      pure (.inl (a + z.bytes, buf.drop z.bytes))
    else pure (.inr (a, buf))

/-- The last bytes of `stm_store_bytes`. -/
def storeLast (pos : ℕ × List (BitVec 8)) : Prog σ Unit :=
  if pos.2.length > 0 then
    let (val, mask, _) := putLoop o 0 pos.2 0#_ 0#_
    W.store2 pos.1 val mask
  else pure ()

/-- `stm_store_bytes`; the size is the length of the buffer. -/
def stmStoreBytes (addr : ℕ) (buf : List (BitVec 8)) : Prog σ Unit :=
  if buf.length = 0 then pure ()
  else do
    let pos ← storeFirst o W addr buf
    let pos ← storeWords o W pos
    storeLast o W pos

/-- `for (; i < sizeof(stm_word_t) && count > 0; i++, count--) mask.b[i] = 0xFF`: the mask and what is
left of the count. -/
def maskLoop : ℕ → ℕ → Word z → Word z × ℕ
  | _, 0, mask => (mask, 0)
  | i, count + 1, mask =>
    if i < z.bytes then maskLoop (i + 1) count (o.setByte i 0xFF#8 mask) else (mask, count + 1)

/-- The first bytes of `stm_set_bytes`: the next word and what is left of the count. -/
def setFirst (addr : ℕ) (val : Word z) (count : ℕ) : Prog σ (ℕ × ℕ) :=
  let i := addr % z.bytes
  if i ≠ 0 then do
    let (mask, count) := maskLoop o i count 0#_
    W.store2 (alignDown z addr) val mask
    pure (alignDown z addr + z.bytes, count)
  else pure (addr, count)

/-- The full words of `stm_set_bytes`. -/
def setWords (val : Word z) (pos : ℕ × ℕ) : Prog σ (ℕ × ℕ) :=
  .iterate pos fun (a, count) =>
    if count ≥ z.bytes then do
      W.store a val
      pure (.inl (a + z.bytes, count - z.bytes))
    else pure (.inr (a, count))

/-- The last bytes of `stm_set_bytes`. -/
def setLast (val : Word z) (pos : ℕ × ℕ) : Prog σ Unit :=
  if pos.2 > 0 then W.store2 pos.1 val (maskLoop o 0 pos.2 0#_).1 else pure ()

/-- `stm_set_bytes`. -/
def stmSetBytes (addr : ℕ) (byte : BitVec 8) (count : ℕ) : Prog σ Unit :=
  if count = 0 then pure ()
  else do
    let val := o.ofBytes z.bytes (List.replicate z.bytes byte)
    let pos ← setFirst o W addr val count
    let pos ← setWords W val pos
    setLast o W val pos

/-- `TM_COPY_BYTES`: all bytes are loaded before the first one is stored. -/
def tmCopyBytes (dst src size : ℕ) : Prog σ Unit := do
  let buf ← stmLoadBytes o W src size
  stmStoreBytes o W dst buf

/-! ## Integers -/

/-- An integer of `b` bytes inside a word, which `int_stm_load_u8` and `int_stm_load_u16` load: the
element `addr % sizeof(stm_word_t) / b` of the union's array of such integers. -/
def loadInside (b addr : ℕ) : Prog σ (BitVec (8 * b)) := do
  let val ← W.load (alignDown z addr)
  pure (o.getBytes b (addr % z.bytes / b * b) val)

/-- An integer of `b` bytes that is not aligned. -/
def loadMisaligned (b addr : ℕ) : Prog σ (BitVec (8 * b)) := do
  let buf ← stmLoadBytes o W addr b
  pure (o.ofBytes b buf)

/-- `int_stm_load_u8`. -/
def intStmLoadU8 (addr : ℕ) : Prog σ (BitVec 8) :=
  loadInside o W 1 addr

/-- `int_stm_load_u16`. -/
def intStmLoadU16 (addr : ℕ) : Prog σ (BitVec 16) :=
  if addr % 2 ≠ 0 then loadMisaligned o W 2 addr else loadInside o W 2 addr

/-- `int_stm_load_u32`. -/
def intStmLoadU32 (addr : ℕ) : Prog σ (BitVec 32) :=
  if addr % 4 ≠ 0 then loadMisaligned o W 4 addr
  else match z, W with
    | .four, W => W.load addr
    | .eight, W => loadInside o W 4 addr

/-- `int_stm_load_u64`. -/
def intStmLoadU64 (junk : BitVec 64) (addr : ℕ) : Prog σ (BitVec 64) :=
  if addr % 8 ≠ 0 then loadMisaligned o W 8 addr
  else match z, W with
    | .four, W => do
      let u0 ← W.load addr
      let u1 ← W.load (addr + 4)
      pure (o.setBytes (n := 8) (b := 4) 4 u1 (o.setBytes (n := 8) (b := 4) 0 u0 junk))
    | .eight, W => W.load addr

/-- An integer of `b` bytes inside a word, which `int_stm_store_u8` and `int_stm_store_u16` store. The
rest of the word is not initialised. -/
def storeInside (junk : Word z) {b : ℕ} (addr : ℕ) (value : BitVec (8 * b)) : Prog σ Unit :=
  let i := addr % z.bytes / b * b
  W.store2 (alignDown z addr) (o.setBytes i value junk)
    (o.setBytes i (BitVec.allOnes (8 * b)) (0#_ : Word z))

/-- An integer of `b` bytes that is not aligned. -/
def storeMisaligned {b : ℕ} (addr : ℕ) (value : BitVec (8 * b)) : Prog σ Unit :=
  stmStoreBytes o W addr (o.bytesOf value)

/-- `int_stm_store_u8`. -/
def intStmStoreU8 (junk : Word z) (addr : ℕ) (value : BitVec 8) : Prog σ Unit :=
  storeInside o W junk (b := 1) addr value

/-- `int_stm_store_u16`. -/
def intStmStoreU16 (junk : Word z) (addr : ℕ) (value : BitVec 16) : Prog σ Unit :=
  if addr % 2 ≠ 0 then storeMisaligned o W (b := 2) addr value
  else storeInside o W junk (b := 2) addr value

/-- `int_stm_store_u32`. -/
def intStmStoreU32 (junk : Word z) (addr : ℕ) (value : BitVec 32) : Prog σ Unit :=
  if addr % 4 ≠ 0 then storeMisaligned o W (b := 4) addr value
  else match z, W, junk with
    | .four, W, _ => W.store addr value
    | .eight, W, junk => storeInside o W junk (b := 4) addr value

/-- `int_stm_store_u64`. -/
def intStmStoreU64 (addr : ℕ) (value : BitVec 64) : Prog σ Unit :=
  if addr % 8 ≠ 0 then storeMisaligned o W (b := 8) addr value
  else match z, W with
    | .four, W => do
      W.store addr (o.getBytes (n := 8) 4 0 value)
      W.store (addr + 4) (o.getBytes (n := 8) 4 4 value)
    | .eight, W => W.store addr value

end TinyStm
