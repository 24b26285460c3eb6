import TinyStm.Modules.Memory

/-!
# The words of a freed range

`int_stm_free2` stores to the words of the range of bytes that is freed, if the range starts at a
word and its size can be rounded up. The loop steps through the range word by word and stops at the
end of the rounded size, computed in `size_t`. The condition compares the rounded and the given
range, so it holds exactly if no partial word is left out and no addition wraps around.
-/

namespace TinyStm

variable {z : WordSize}

/-- The word that contains a byte. -/
def wordOf (x : Word z) : Word z := BitVec.ofNat _ (x.toNat / z.bytes * z.bytes)

/-- The word contains a byte of the range `[addr + idx, addr + idx + size)`. -/
def Covers (addr idx size x : Word z) : Prop :=
  ∃ k < size.toNat, x = wordOf (addr + idx + BitVec.ofNat _ k)

/-- The next word. -/
theorem add_word (a : Word z) (k : ℕ) : a + BitVec.ofNat _ z.bytes + BitVec.ofNat _ (k * z.bytes) =
    a + BitVec.ofNat _ ((k + 1) * z.bytes) := by
  have hk : z.bytes + k * z.bytes = (k + 1) * z.bytes := by rw [Nat.succ_mul, Nat.add_comm]
  rw [BitVec.add_assoc, ← BitVec.ofNat_add]
  exact congrArg (a + BitVec.ofNat _ ·) hk

theorem mem_zeroStores (a x : Word z) (n : ℕ) :
    x ∈ zeroStores a n ↔ ∃ k < n, x = a + BitVec.ofNat _ (k * z.bytes) := by
  induction n generalizing a with
  | zero => simp [zeroStores]
  | succ n ih =>
    rw [zeroStores, List.mem_cons, ih]
    constructor
    · rintro (rfl | ⟨k, hk, rfl⟩)
      · exact ⟨0, Nat.succ_pos n, by simp⟩
      · exact ⟨k + 1, Nat.succ_lt_succ hk, add_word a k⟩
    · rintro ⟨k, hk, rfl⟩
      cases k with
      | zero => exact .inl (by simp)
      | succ k => exact .inr ⟨k, Nat.lt_of_succ_lt_succ hk, (add_word a k).symm⟩

/-- A number of bytes as a number of words. -/
theorem toNat_toWords (x : Word z) :
    (toWords x).toNat = (x.toNat + (z.bytes - 1)) % 2 ^ (8 * z.bytes) / z.bytes := by
  rw [toWords, BitVec.toNat_ushiftRight, Nat.shiftRight_eq_div_pow, BitVec.toNat_add]
  cases z <;> rfl

/-- The words that `int_stm_free2` stores to, as numbers. -/
theorem mem_freeStores (addr idx size x : Word z) : x ∈ freeStores addr idx size ↔
    0 < size.toNat ∧ ∃ k < (toWords size).toNat, x.toNat =
      (addr.toNat + ((toWords idx).toNat + k) * z.bytes) % 2 ^ (8 * z.bytes) := by
  have hword (k : ℕ) : x = addr + toWords idx * BitVec.ofNat _ z.bytes + BitVec.ofNat _ (k * z.bytes) ↔
      x.toNat = (addr.toNat + ((toWords idx).toNat + k) * z.bytes) % 2 ^ (8 * z.bytes) := by
    rw [← BitVec.toNat_inj, BitVec.toNat_add, BitVec.toNat_add, BitVec.toNat_mul, BitVec.toNat_ofNat,
      BitVec.toNat_ofNat, Nat.mul_mod_mod, Nat.add_mod_mod, Nat.add_mod_mod, Nat.mod_add_mod,
      Nat.add_assoc, ← Nat.add_mul]
  unfold freeStores
  by_cases hsize : size > 0
  · have hpos : 0 < size.toNat := hsize
    rw [if_pos hsize, mem_zeroStores]
    simp only [hword, hpos, true_and]
  · have hpos : ¬ 0 < size.toNat := hsize
    rw [if_neg hsize]
    simp [hpos]

/-- The words that the range covers, as numbers. -/
theorem covers_iff (addr idx size x : Word z) : Covers addr idx size x ↔
    ∃ k < size.toNat, x.toNat =
      (addr.toNat + idx.toNat + k) % 2 ^ (8 * z.bytes) / z.bytes * z.bytes := by
  refine exists_congr fun k => and_congr_right fun _ => ?_
  have hlt (n : ℕ) : n % 2 ^ (8 * z.bytes) / z.bytes * z.bytes < 2 ^ (8 * z.bytes) :=
    (Nat.div_mul_le_self ..).trans_lt (Nat.mod_lt _ (Nat.two_pow_pos _))
  rw [← BitVec.toNat_inj, wordOf, BitVec.toNat_ofNat, BitVec.toNat_add, BitVec.toNat_add,
    BitVec.toNat_ofNat, Nat.add_mod_mod, Nat.mod_add_mod, Nat.mod_eq_of_lt (hlt _)]

/-- Some word of the range is missed, unless the range starts at a word and its size can be rounded up. -/
theorem exists_missed {addr idx size : Word z} (haddr : z.bytes ∣ addr.toNat) (hpos : 0 < size.toNat)
    (h : ¬ (z.bytes ∣ idx.toNat ∧ size.toNat + z.bytes ≤ 2 ^ (8 * z.bytes))) :
    wordOf (addr + idx) ∉ freeStores addr idx size := by
  have ha := addr.isLt
  have hi := idx.isLt
  have hs := size.isLt
  rw [mem_freeStores, toNat_toWords, toNat_toWords]
  rintro ⟨-, k, hk, hx⟩
  rw [wordOf, BitVec.toNat_ofNat, BitVec.toNat_add] at hx
  cases z <;> simp only [WordSize.bytes] at * <;> omega

/-- The words of a range that starts at a word. -/
theorem stores_iff_covers {addr idx size : Word z} (haddr : z.bytes ∣ addr.toNat)
    (hidx : z.bytes ∣ idx.toNat) (hsize : size.toNat + z.bytes ≤ 2 ^ (8 * z.bytes)) (x : Word z) :
    x ∈ freeStores addr idx size ↔ Covers addr idx size x := by
  have ha := addr.isLt
  have hi := idx.isLt
  rw [mem_freeStores, covers_iff, toNat_toWords, toNat_toWords]
  constructor
  · rintro ⟨hpos, k, hk, hx⟩
    refine ⟨k * z.bytes, ?_, ?_⟩ <;>
      cases z <;> simp only [WordSize.bytes] at * <;> omega
  · rintro ⟨k, hk, hx⟩
    refine ⟨by omega, k / z.bytes, ?_, ?_⟩ <;>
      cases z <;> simp only [WordSize.bytes] at * <;> omega

/-- `int_stm_free2` stores to exactly the words that contain a byte of the range, if and only if the range
is empty, or starts at a word and has a size that can be rounded up. -/
theorem free2_covers_iff {addr : Word z} (haddr : z.bytes ∣ addr.toNat) (idx size : Word z) :
    (∀ x, x ∈ freeStores addr idx size ↔ Covers addr idx size x) ↔
      size = 0 ∨ z.bytes ∣ idx.toNat ∧ size.toNat + z.bytes ≤ 2 ^ (8 * z.bytes) := by
  constructor
  · intro h
    by_cases hpos : 0 < size.toNat
    · refine .inr (not_not.1 fun hnot => exists_missed haddr hpos hnot ((h _).2 ⟨0, hpos, ?_⟩))
      simp
    · exact .inl (BitVec.eq_of_toNat_eq (Nat.eq_zero_of_not_pos hpos))
  · rintro (rfl | ⟨hidx, hsize⟩) x
    · simp [mem_freeStores, Covers]
    · exact stores_iff_covers haddr hidx hsize x

/-- A range that starts within a word. -/
theorem free2_not_covers :
    ¬ ∀ x : Word .eight, x ∈ freeStores 0x1000 4 4 ↔ Covers 0x1000 4 4 x := by
  intro h
  have hmem : (0x1000 : Word .eight) ∈ freeStores (0x1000 : Word .eight) 4 4 :=
    (h 0x1000).2 ⟨0, by decide, by decide⟩
  revert hmem
  decide

/-- A range of three bytes at the start of a word. -/
theorem free2_covers_word : (8 : Word .eight) ∈ freeStores 0 8 3 ∧
    ∀ x : Word .eight, x ∈ freeStores 0 8 3 ↔ Covers 0 8 3 x :=
  ⟨by decide, (@free2_covers_iff .eight 0 (by decide) 8 3).2 (.inr (by decide))⟩

end TinyStm
