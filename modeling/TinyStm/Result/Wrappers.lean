import TinyStm.Proof.Wrappers

/-!
# The byte semantics of the typed accesses

Over any memory of words, each typed store changes exactly the bytes of its range and each typed
load returns them, so a load after any sequence of stores returns their overlay, and a copy is
`memmove`. The bottom layer is a memory of words with a load and a masked store, which may be the
transaction's. The flat memory of bytes above it has slices and overlays. Each wrapper is a loop
over words, and its theorem says which slice it returns or which overlay it makes, for every
address, size and byte order.
-/

namespace TinyStm

/-- A typed store. -/
inductive TypedStore (z : WordSize)
  | u8 (junk : Word z) (addr : ℕ) (value : BitVec 8)
  | u16 (junk : Word z) (addr : ℕ) (value : BitVec 16)
  | u32 (junk : Word z) (addr : ℕ) (value : BitVec 32)
  | u64 (addr : ℕ) (value : BitVec 64)
  | bytes (addr : ℕ) (buf : List (BitVec 8))
  | set (addr : ℕ) (byte : BitVec 8) (count : ℕ)

/-- A typed load. -/
inductive TypedLoad
  | u8 (addr : ℕ)
  | u16 (addr : ℕ)
  | u32 (addr : ℕ)
  | u64 (junk : BitVec 64) (addr : ℕ)
  | bytes (addr size : ℕ)

section
variable {σ : Type} {z : WordSize} (o : ByteOrder) (W : WordMemory σ z)

/-- The program of a typed store. -/
def TypedStore.run : TypedStore z → Prog σ Unit
  | .u8 junk addr value => intStmStoreU8 o W junk addr value
  | .u16 junk addr value => intStmStoreU16 o W junk addr value
  | .u32 junk addr value => intStmStoreU32 o W junk addr value
  | .u64 addr value => intStmStoreU64 o W addr value
  | .bytes addr buf => stmStoreBytes o W addr buf
  | .set addr byte count => stmSetBytes o W addr byte count

/-- The first byte that a typed store changes. -/
def TypedStore.addr : TypedStore z → ℕ
  | .u8 _ addr _ | .u16 _ addr _ | .u32 _ addr _ | .u64 addr _ | .bytes addr _ | .set addr _ _ => addr

/-- The bytes that a typed store is given. -/
def TypedStore.data : TypedStore z → List (BitVec 8)
  | .u8 _ _ value => o.bytesOf (n := 1) value
  | .u16 _ _ value => o.bytesOf (n := 2) value
  | .u32 _ _ value => o.bytesOf (n := 4) value
  | .u64 _ value => o.bytesOf (n := 8) value
  | .bytes _ buf => buf
  | .set _ byte count => List.replicate count byte

/-- The program of a typed load, which returns the bytes of the value. -/
def TypedLoad.run : TypedLoad → Prog σ (List (BitVec 8))
  | .u8 addr => do
    let v ← intStmLoadU8 o W addr
    pure (o.bytesOf (n := 1) v)
  | .u16 addr => do
    let v ← intStmLoadU16 o W addr
    pure (o.bytesOf (n := 2) v)
  | .u32 addr => do
    let v ← intStmLoadU32 o W addr
    pure (o.bytesOf (n := 4) v)
  | .u64 junk addr => do
    let v ← intStmLoadU64 o W junk addr
    pure (o.bytesOf (n := 8) v)
  | .bytes addr size => stmLoadBytes o W addr size

/-- The first byte that a typed load returns. -/
def TypedLoad.addr : TypedLoad → ℕ
  | .u8 addr | .u16 addr | .u32 addr | .u64 _ addr | .bytes addr _ => addr

/-- The number of bytes that a typed load returns. -/
def TypedLoad.size : TypedLoad → ℕ
  | .u8 _ => 1
  | .u16 _ => 2
  | .u32 _ => 4
  | .u64 _ _ => 8
  | .bytes _ size => size

/-- Typed stores, one after the other. -/
def runStores : List (TypedStore z) → Prog σ Unit
  | [] => pure ()
  | st :: sts => do
    st.run o W
    runStores sts

/-- The overlay of typed stores on a memory of bytes. -/
def overlays (sts : List (TypedStore z)) (m : ByteMem) : ByteMem :=
  sts.foldl (fun m st => m.overlay st.addr (st.data o)) m

end

section
variable {σ : Type} {z : WordSize} {o : ByteOrder} {W : WordMemory σ z} {s : σ}

/-- A typed store changes exactly the bytes of its range. -/
theorem TypedStore.run_ends (st : TypedStore z) :
    (st.run o W).Ends (fun _ t => W.flat o t = (W.flat o s).overlay st.addr (st.data o))
      (fun _ => False) s := by
  cases st with
  | u8 => exact intStmStoreU8_ends ..
  | u16 => exact intStmStoreU16_ends ..
  | u32 => exact intStmStoreU32_ends ..
  | u64 => exact intStmStoreU64_ends _
  | bytes => exact stmStoreBytes_ends _
  | set => exact stmSetBytes_ends ..

/-- A typed load returns the bytes of its range. -/
theorem TypedLoad.run_ends (ld : TypedLoad) :
    (ld.run o W).Ends (fun v t => W.mem t = W.mem s ∧ v = (W.flat o s).slice ld.addr ld.size)
      (fun _ => False) s := by
  cases ld with
  | u8 => exact .bind intStmLoadU8_ends fun _ _ h => .ret h
  | u16 => exact .bind intStmLoadU16_ends fun _ _ h => .ret h
  | u32 => exact .bind intStmLoadU32_ends fun _ _ h => .ret h
  | u64 => exact .bind (intStmLoadU64_ends _) fun _ _ h => .ret h
  | bytes => exact stmLoadBytes_ends _

/-- Typed stores, one after the other, overlay the memory. -/
theorem runStores_ends (sts : List (TypedStore z)) :
    (runStores o W sts).Ends (fun _ t => W.flat o t = overlays o sts (W.flat o s)) (fun _ => False)
      s := by
  induction sts generalizing s with
  | nil => exact .ret rfl
  | cons st sts ih =>
    refine .bind st.run_ends fun _ t ht => ih.mono (fun _ u hu => ?_) fun _ h => h
    rw [hu, ht]
    rfl

end

/-- The typed accesses have byte semantics, for both word sizes, both byte orders, all addresses and
sizes, all contents of the memory and of uninitialised variables: a store changes exactly the bytes of
its range to the given ones, a load returns the bytes of its range and changes nothing, a load after a
sequence of stores returns the bytes of their overlay, and a copy through a buffer is `memmove`. -/
theorem typed_accesses {σ : Type} {z : WordSize} (o : ByteOrder) (W : WordMemory σ z) (s : σ) :
    (∀ st : TypedStore z, (st.run o W).Ends
      (fun _ t => W.flat o t = (W.flat o s).overlay st.addr (st.data o)) (fun _ => False) s) ∧
    (∀ ld : TypedLoad, (ld.run o W).Ends
      (fun v t => W.flat o t = W.flat o s ∧ v = (W.flat o s).slice ld.addr ld.size)
      (fun _ => False) s) ∧
    (∀ (sts : List (TypedStore z)) (ld : TypedLoad), (runStores o W sts >>= fun _ => ld.run o W).Ends
      (fun v _ => v = (overlays o sts (W.flat o s)).slice ld.addr ld.size) (fun _ => False) s) ∧
    ∀ dst src size, (tmCopyBytes o W dst src size).Ends
      (fun _ t => W.flat o t = (W.flat o s).memmove dst src size) (fun _ => False) s := by
  refine ⟨fun st => st.run_ends, fun ld => ?_, fun sts ld => ?_, tmCopyBytes_ends⟩
  · refine ld.run_ends.mono (fun v t h => ⟨?_, h.2⟩) fun _ h => h
    simp only [WordMemory.flat, h.1]
  · refine .bind (runStores_ends sts) fun _ t ht => ld.run_ends.mono (fun v u h => ?_) fun _ h => h
    rw [h.2, ht]

/-- A memory of words and nothing else. -/
def WordMemory.plain (z : WordSize) : WordMemory (Mem ℕ (8 * z.bytes)) z where
  load a := .read fun m => m a
  store a x := .modify fun m => Function.update m a x
  store2 a x k := .modify fun m => Function.update m a (BitVec.merge (m a) x k)
  mem m := m
  load_ends _ _ _ := .atomic ⟨rfl, rfl⟩
  store_ends _ _ _ _ := .atomic rfl
  store2_ends _ _ _ _ _ := .atomic rfl

-- three bytes across a word boundary, and the two that come second and third
example : ((WordMemory.plain .four).flat .big ((runStores .big (.plain .four)
    [.bytes 2 [1, 2, 3]]).run 20 fun _ => 0#32).2).slice 3 2 = [2, 3] := by decide

end TinyStm
