import TinyStm.Modules.Memory

/-!
# Sizes of blocks

The sizes that `int_stm_malloc`, `int_stm_calloc` and `tanger_stm_calloc` ask the allocator for are computed
in `size_t`. The rounding up to whole words wraps to 0 for a size of which less than a word is missing to
`2^w`, and so does the product of `tanger_stm_calloc`: `calloc` checks its product, but after the rounding.
-/

namespace TinyStm

/-- A block that the allocator has returned: it has as many bytes as were asked for, and `initialised` of
them have been set to 0, from its start on. -/
structure Block where
  size : ℕ
  initialised : ℕ
  deriving DecidableEq

/-- The block has `n` bytes, and nothing behind it has been initialised. -/
def Block.Fits (b : Block) (n : ℕ) : Prop := n ≤ b.size ∧ b.initialised ≤ b.size

instance Block.Fits.decidable (b : Block) (n : ℕ) : Decidable (b.Fits n) := inferInstanceAs (Decidable (_ ∧ _))

namespace Block

variable {z : WordSize}

/-- `malloc`, if it succeeds for the sizes `avail`. -/
def malloc (avail : ℕ → Bool) (size : ℕ) : Option Block :=
  if avail size then some ⟨size, 0⟩ else none

/-- `calloc`: it fails where the product is not a `size_t`. -/
def calloc (avail : ℕ → Bool) (nm size : Word z) : Option Block :=
  if nm.toNat * size.toNat < 2 ^ (8 * z.bytes) ∧ avail (nm.toNat * size.toNat) then
    some ⟨nm.toNat * size.toNat, nm.toNat * size.toNat⟩
  else none

/-- The block that `int_stm_malloc` returns; `xmalloc` does not return if there is none. -/
def intStmMalloc (avail : ℕ → Bool) (size : Word z) : Option Block := malloc avail (roundUp size).toNat

/-- The block that `int_stm_calloc` returns; `xcalloc` does not return if there is none. -/
def intStmCalloc (avail : ℕ → Bool) (nm size : Word z) : Option Block :=
  calloc avail nm (roundUp size)

/-- The block that `_ITM_malloc` returns, in a transaction or outside of one. -/
def itmMalloc (avail : ℕ → Bool) (active : Bool) (size : Word z) : Option Block :=
  if active then intStmMalloc avail size else malloc avail size.toNat

/-- The block that `tanger_stm_calloc` returns. -/
def tangerStmCalloc (avail : ℕ → Bool) (active : Bool) (nmemb size : Word z) : Option Block := do
  let p ← itmMalloc avail active (nmemb * size)
  pure { p with initialised := (nmemb * size).toNat }

end Block

variable {z : WordSize} {F : Type} {cfg : CbConfig}

/-- The sizes are those of the requests that are recorded with the callbacks. -/
theorem intStmMalloc_request {size addr : Word cfg.word} {icb icb' : ModCbInfo F cfg.word}
    (h : intStmMalloc cfg size addr icb = .ok icb') :
    icb'.mallocs = (roundUp size, addr) :: icb.mallocs := by
  unfold intStmMalloc modCbAddOnAbort at h
  dsimp only at h
  cases hadd : icb.abort.add cfg ⟨.free, addr⟩ with
  | error f =>
    rw [hadd] at h
    cases h
  | ok abort =>
    rw [hadd] at h
    cases h
    rfl

/-- The low bits of a size are cleared. -/
theorem and_not_mask (x : Word z) : x &&& ~~~z.mask = x >>> z.shift <<< z.shift := by
  rw [BitVec.shiftLeft_ushiftRight]
  cases z <;> rfl

/-- The size that is asked for, as a number: the sum wraps. -/
theorem toNat_roundUp (size : Word z) : (roundUp size).toNat =
    (size.toNat + (z.bytes - 1)) % 2 ^ (8 * z.bytes) / z.bytes * z.bytes := by
  have hbytes : 2 ^ z.shift = z.bytes := by cases z <;> rfl
  have hmask : z.mask.toNat = z.bytes - 1 := by cases z <;> rfl
  have hlt : (size.toNat + (z.bytes - 1)) % 2 ^ (8 * z.bytes) / z.bytes * z.bytes < 2 ^ (8 * z.bytes) :=
    (Nat.div_mul_le_self ..).trans_lt (Nat.mod_lt _ (Nat.two_pow_pos _))
  rw [roundUp, and_not_mask, BitVec.toNat_shiftLeft, BitVec.toNat_ushiftRight, Nat.shiftRight_eq_div_pow,
    Nat.shiftLeft_eq, BitVec.toNat_add, hmask, hbytes, Nat.mod_eq_of_lt hlt]

/-- The rounding does not wrap. -/
theorem le_roundUp_iff (size : Word z) :
    size.toNat ≤ (roundUp size).toNat ↔ size.toNat + z.bytes ≤ 2 ^ (8 * z.bytes) := by
  have hlt := size.isLt
  rw [toNat_roundUp]
  cases z <;> simp only [WordSize.bytes] at * <;> omega

/-- Where it wraps, nothing is left of the size. -/
theorem roundUp_eq_zero {size : Word z} (h : ¬ size.toNat + z.bytes ≤ 2 ^ (8 * z.bytes)) :
    (roundUp size).toNat = 0 := by
  have hlt := size.isLt
  rw [toNat_roundUp]
  cases z <;> simp only [WordSize.bytes] at * <;> omega

namespace Block

variable {nm size : Word z}

/-- The blocks of all allocators have `n` bytes, if and only if the size that is asked for is at least
`n`. -/
theorem malloc_fits_iff (n k : ℕ) :
    (∀ avail b, malloc avail k = some b → b.Fits n) ↔ n ≤ k := by
  constructor
  · intro h
    exact (h (fun _ => true) ⟨k, 0⟩ rfl).1
  · intro hle avail b hb
    unfold malloc at hb
    split at hb
    · cases hb
      exact ⟨hle, Nat.zero_le _⟩
    · cases hb

/-- `int_stm_malloc`. -/
theorem intStmMalloc_fits_iff :
    (∀ avail b, intStmMalloc avail size = some b → b.Fits size.toNat) ↔
      size.toNat + z.bytes ≤ 2 ^ (8 * z.bytes) :=
  (malloc_fits_iff ..).trans (le_roundUp_iff size)

/-- `int_stm_calloc`. -/
theorem intStmCalloc_fits_iff :
    (∀ avail b, intStmCalloc avail nm size = some b → b.Fits (nm.toNat * size.toNat)) ↔
      size.toNat + z.bytes ≤ 2 ^ (8 * z.bytes) ∨ nm.toNat = 0 := by
  rw [← le_roundUp_iff]
  constructor
  · intro h
    by_contra hne
    obtain ⟨hlt, hnm⟩ := not_or.1 hne
    -- a block of no bytes is returned
    have hzero := roundUp_eq_zero (mt (le_roundUp_iff size).2 hlt)
    have hcalloc : intStmCalloc (fun _ => true) nm size = some ⟨0, 0⟩ := by
      simp [intStmCalloc, calloc, hzero]
    have hfits := (h _ _ hcalloc).1
    have hsize : 0 < size.toNat := by
      have := mt (le_roundUp_iff size).2 hlt
      cases z <;> simp only [WordSize.bytes] at * <;> omega
    exact absurd hfits (Nat.not_le.2 (Nat.mul_pos (Nat.pos_of_ne_zero hnm) hsize))
  · intro hle avail b hb
    unfold intStmCalloc calloc at hb
    split at hb
    · cases hb
      refine ⟨?_, le_rfl⟩
      rcases hle with hle | hnm
      · exact Nat.mul_le_mul_left _ hle
      · simp [hnm]
    · cases hb

/-- What `tanger_stm_calloc` returns has the bytes that `_ITM_malloc` was asked for. -/
theorem tangerStmCalloc_eq (avail : ℕ → Bool) (active : Bool) :
    tangerStmCalloc avail active nm size = (malloc avail (if active then (roundUp (nm * size)).toNat
      else (nm * size).toNat)).map fun p => { p with initialised := (nm * size).toNat } := by
  rw [Option.map_eq_bind]
  unfold tangerStmCalloc itmMalloc intStmMalloc
  cases active <;> rfl

/-- `tanger_stm_calloc`, whose blocks fit if and only if both the block and the bytes that are set to 0 have
the product for their size. -/
theorem tangerStmCalloc_fits_iff (active : Bool) :
    (∀ avail b, tangerStmCalloc avail active nm size = some b → b.Fits (nm.toNat * size.toNat)) ↔
      nm.toNat * size.toNat + (if active then z.bytes else 1) ≤ 2 ^ (8 * z.bytes) := by
  set k := if active then (roundUp (nm * size)).toNat else (nm * size).toNat with hk
  have hblock : (∀ avail b, tangerStmCalloc avail active nm size = some b →
      b.Fits (nm.toNat * size.toNat)) ↔ nm.toNat * size.toNat ≤ k ∧ (nm * size).toNat ≤ k := by
    constructor
    · intro h
      refine h (fun _ => true) ⟨k, (nm * size).toNat⟩ ?_
      rw [tangerStmCalloc_eq, ← hk]
      rfl
    · intro hle avail b hb
      rw [tangerStmCalloc_eq, ← hk, malloc] at hb
      split at hb
      · cases hb
        exact hle
      · cases hb
  have hmul : (nm * size).toNat = nm.toNat * size.toNat % 2 ^ (8 * z.bytes) := BitVec.toNat_mul ..
  have hlt := (nm * size).isLt
  rw [hblock, hk]
  cases active with
  | false =>
    rw [if_neg (by decide), if_neg (by decide)]
    refine ⟨fun h => h.1.trans_lt hlt, fun h => ?_⟩
    rw [hmul, Nat.mod_eq_of_lt h]
    exact ⟨le_rfl, le_rfl⟩
  | true =>
    rw [if_pos rfl, if_pos rfl]
    constructor
    · rintro ⟨hle, hround⟩
      have heq := Nat.mod_eq_of_lt (hle.trans_lt (roundUp (nm * size)).isLt)
      rwa [le_roundUp_iff, hmul, heq] at hround
    · intro h
      have hbytes : 0 < z.bytes := by cases z <;> decide
      have heq := Nat.mod_eq_of_lt (show nm.toNat * size.toNat < 2 ^ (8 * z.bytes) by omega)
      have hround := (le_roundUp_iff (nm * size)).2 (by rwa [hmul, heq])
      rw [hmul, heq] at hround ⊢
      exact ⟨hround, hround⟩

end Block

/-- The blocks of the three functions have the bytes that are asked for, computed without overflow, and
nothing behind them is initialised, if and only if the size can be rounded up to whole words (for
`int_stm_calloc`, the size of an element, unless there is none), and for `tanger_stm_calloc` the product of
the number and the size. -/
theorem alloc_fits_iff (nm size : Word z) (active : Bool) :
    ((∀ avail b, Block.intStmMalloc avail size = some b → b.Fits size.toNat) ↔
      size.toNat + z.bytes ≤ 2 ^ (8 * z.bytes)) ∧
    ((∀ avail b, Block.intStmCalloc avail nm size = some b → b.Fits (nm.toNat * size.toNat)) ↔
      size.toNat + z.bytes ≤ 2 ^ (8 * z.bytes) ∨ nm.toNat = 0) ∧
    ((∀ avail b, Block.tangerStmCalloc avail active nm size = some b →
        b.Fits (nm.toNat * size.toNat)) ↔
      nm.toNat * size.toNat + (if active then z.bytes else 1) ≤ 2 ^ (8 * z.bytes)) :=
  ⟨Block.intStmMalloc_fits_iff, Block.intStmCalloc_fits_iff, Block.tangerStmCalloc_fits_iff active⟩

/-- An allocation of almost all memory returns a block of no bytes, and so does one of two halves of it; the
bytes that are set to 0 then lie behind a block if it is one element of almost all memory. -/
theorem alloc_not_fits :
    (∃ b, Block.intStmMalloc (z := .eight) (fun _ => true) (-1) = some b ∧ ¬ b.Fits (2 ^ 64 - 1)) ∧
      (∃ b, Block.intStmCalloc (z := .eight) (fun _ => true) 1 (-1) = some b ∧
        ¬ b.Fits (1 * (2 ^ 64 - 1))) ∧
      (∃ b, Block.tangerStmCalloc (z := .eight) (fun _ => true) true 2 (1 <<< 63) = some b ∧
        ¬ b.Fits (2 * 2 ^ 63)) ∧
      ∃ b, Block.tangerStmCalloc (z := .eight) (fun _ => true) true 1 (-1) = some b ∧
        b.size < b.initialised :=
  ⟨⟨⟨0, 0⟩, by decide⟩, ⟨⟨0, 0⟩, by decide⟩, ⟨⟨0, 0⟩, by decide⟩, ⟨0, 2 ^ 64 - 1⟩, by decide⟩

end TinyStm
