import TinyStm.Model.Encoding

/-!
# Fields of lock words

What is put into a lock word is read back. The mask of the incarnation does not follow the number of
owned bits, as the shift does: with two owned bits the highest bit of an incarnation is lost. The
macros are taken for words of any width from 8 bits on and for both numbers of owned bits, and each
law is decided bit by bit. The last part connects the words with the natural numbers that the rest
of the development uses.
-/

namespace TinyStm.Encoding

variable {w : ℕ} {modular : Bool} {t i a l : BitVec w}

/-! ## Bits -/

/-- The bit that says that a lock is held for writing. -/
theorem getLsbD_writeMask (k : ℕ) :
    (writeMask : BitVec w).getLsbD k = (decide (k < w) && decide (k = 0)) := by
  rw [writeMask, BitVec.getLsbD_ofNat]
  congr 1
  exact (Nat.testBit_two_pow_sub_one 1 k).trans (by simp)

/-- The bit that says that a lock is held for reading. -/
theorem getLsbD_readMask (k : ℕ) :
    (readMask : BitVec w).getLsbD k = (decide (k < w) && decide (k = 1)) := by
  rw [readMask, BitVec.getLsbD_ofNat]
  congr 1
  exact (Nat.testBit_two_pow (n := 1)).trans (by simp [eq_comm])

/-- The owned bits are the lowest ones. -/
theorem getLsbD_ownedMask (k : ℕ) :
    (ownedMask modular : BitVec w).getLsbD k = (decide (k < w) && decide (k < ownedBits modular)) := by
  unfold ownedMask ownedBits
  cases modular with
  | false => simp [getLsbD_writeMask]
  | true =>
    simp only [if_true, BitVec.getLsbD_or, getLsbD_writeMask, getLsbD_readMask, ← Bool.and_or_distrib_left,
      ← Bool.decide_or]
    congr 2
    simp only [eq_iff_iff]
    omega

/-- The mask of the incarnation has the bits 1 to 3. -/
theorem getLsbD_incarnationMask (k : ℕ) :
    (incarnationMask : BitVec w).getLsbD k = (decide (k < w) && decide (1 ≤ k ∧ k < 4)) := by
  have h7 : incarnationMax = 2 ^ 3 - 1 := rfl
  rw [incarnationMask, BitVec.getLsbD_ofNat, Nat.testBit_shiftLeft, h7, Nat.testBit_two_pow_sub_one,
    ← Bool.decide_and]
  congr 2
  simp only [eq_iff_iff]
  omega

variable (modular) in
/-- One bit or two say that a lock is held. -/
theorem ownedBits_cases : ownedBits modular = 1 ∨ ownedBits modular = 2 := by
  cases modular
  · exact .inl rfl
  · exact .inr rfl

variable (modular) in
/-- The bits below the timestamp. -/
theorem lockBits_eq : lockBits modular = ownedBits modular + 3 := rfl

/-- A timestamp leaves the highest bits clear. -/
theorem getLsbD_of_timestamp (ht : t ≤ versionMax modular + maxThreads) {k : ℕ}
    (hk : w ≤ k + lockBits modular) : t.getLsbD k = false := by
  have hmax : (versionMax modular + maxThreads : BitVec w) = ~~~0#w >>> lockBits modular :=
    BitVec.sub_add_cancel ..
  rw [hmax] at ht
  refine BitVec.testBit_toNat t ▸ Nat.testBit_lt_two_pow (lt_of_le_of_lt ht ?_)
  rw [BitVec.toNat_ushiftRight, Nat.shiftRight_eq_div_pow]
  refine Nat.div_lt_of_lt_mul ((BitVec.isLt _).trans_le ?_)
  rw [← Nat.pow_add, Nat.add_comm]
  exact Nat.pow_le_pow_right (by decide) hk

/-- An incarnation has three bits. -/
theorem getLsbD_of_incarnation (hi : i.toNat ≤ incarnationMax) {k : ℕ} (hk : 3 ≤ k) :
    i.getLsbD k = false := by
  have h7 : incarnationMax < 2 ^ 3 := by decide
  exact BitVec.testBit_toNat i ▸ Nat.testBit_lt_two_pow
    (hi.trans_lt (h7.trans_le (Nat.pow_le_pow_right (by decide) hk)))

/-- The address of an entry has the lowest bits clear. -/
theorem getLsbD_of_aligned (ha : 64 ∣ a.toNat) {k : ℕ} (hk : k < 6) : a.getLsbD k = false := by
  obtain ⟨n, hn⟩ := ha
  have htest : (2 ^ 6 * n).testBit k = false := by
    rw [Nat.testBit_two_pow_mul]
    simp [hk]
  rwa [← BitVec.testBit_toNat, hn]

/-! ## Fields -/

/-- A timestamp that the clock may have is read back. -/
theorem timestamp_of_set (ht : t ≤ versionMax modular + maxThreads) :
    lockGetTimestamp modular (lockSetTimestamp modular t) = t := by
  refine BitVec.eq_of_getLsbD_eq fun k hk => ?_
  rw [lockGetTimestamp, lockSetTimestamp, BitVec.getLsbD_ushiftRight, BitVec.getLsbD_shiftLeft]
  by_cases hlt : lockBits modular + k < w
  · simp [hlt]
  · simp [hlt, getLsbD_of_timestamp ht (k := k) (by omega)]

/-- The bits of a word with a new incarnation. -/
theorem getLsbD_updIncarnation {k : ℕ} (hk : k < w) :
    (lockUpdIncarnation modular l i).getLsbD k =
      if k < 4 then decide (ownedBits modular ≤ k) && i.getLsbD (k - ownedBits modular)
      else l.getLsbD k || i.getLsbD (k - ownedBits modular) := by
  have hcases := ownedBits_cases modular
  rw [lockUpdIncarnation, lockSetIncarnation, BitVec.getLsbD_or, BitVec.getLsbD_and, BitVec.getLsbD_not,
    BitVec.getLsbD_or, getLsbD_incarnationMask, getLsbD_ownedMask, BitVec.getLsbD_shiftLeft]
  split
  · next h4 =>
    -- the bits of the owner and of the old incarnation are cleared
    have hmask : (decide (1 ≤ k ∧ k < 4) || decide (k < ownedBits modular)) = true := by
      rw [← Bool.decide_or, decide_eq_true_iff]
      omega
    rw [← Bool.and_or_distrib_left, hmask]
    simp only [hk, decide_true, Bool.true_and, Bool.not_true, Bool.and_false, Bool.false_or]
    by_cases hlt : k < ownedBits modular <;> simp [hlt, Nat.not_le.2, Nat.le_of_not_lt]
  · next h4 =>
    have hlt : ¬ k < ownedBits modular := by omega
    simp only [h4, hlt, hk, decide_true, decide_false, and_false, Bool.and_false, Bool.or_false,
      Bool.not_false, Bool.and_true, Bool.true_and]

/-- The timestamp does not change with the incarnation. -/
theorem timestamp_of_upd (hi : i.toNat ≤ incarnationMax) :
    lockGetTimestamp modular (lockUpdIncarnation modular l i) = lockGetTimestamp modular l := by
  refine BitVec.eq_of_getLsbD_eq fun k hk => ?_
  have hcases := ownedBits_cases modular
  have hlock := lockBits_eq modular
  rw [lockGetTimestamp, lockGetTimestamp, BitVec.getLsbD_ushiftRight, BitVec.getLsbD_ushiftRight]
  by_cases hlt : lockBits modular + k < w
  · rw [getLsbD_updIncarnation hlt, if_neg (by omega), getLsbD_of_incarnation hi (by omega),
      Bool.or_false]
  · rw [BitVec.getLsbD_of_ge _ _ (by omega), BitVec.getLsbD_of_ge _ _ (by omega)]

/-- The bits of the incarnation that is read back. -/
theorem getLsbD_incarnation_of_upd (hw : 8 ≤ w) (k : ℕ) :
    (lockGetIncarnation modular (lockUpdIncarnation modular l i)).getLsbD k =
      (decide (k + ownedBits modular < 4) && i.getLsbD k) := by
  have hcases := ownedBits_cases modular
  rw [lockGetIncarnation, BitVec.getLsbD_ushiftRight, BitVec.getLsbD_and, getLsbD_incarnationMask]
  by_cases hlt : k + ownedBits modular < 4
  · rw [getLsbD_updIncarnation (by omega), if_pos (by omega), Nat.add_sub_cancel_left]
    have hmask : 1 ≤ ownedBits modular + k ∧ ownedBits modular + k < 4 := by omega
    have hkw : ownedBits modular + k < w := by omega
    simp [hlt, hmask, hkw]
  · have hmask : ¬ (1 ≤ ownedBits modular + k ∧ ownedBits modular + k < 4) := by omega
    rw [decide_eq_false hmask, decide_eq_false hlt, Bool.and_false, Bool.and_false, Bool.false_and]

/-- An incarnation is read back if and only if it has no bit outside of the mask. -/
theorem incarnation_of_upd_iff (hw : 8 ≤ w) (hi : i.toNat ≤ incarnationMax) :
    lockGetIncarnation modular (lockUpdIncarnation modular l i) = i ↔ modular = false ∨ i.toNat ≤ 3 := by
  have hbits : lockGetIncarnation modular (lockUpdIncarnation modular l i) = i ↔
      i.toNat < 2 ^ (4 - ownedBits modular) := by
    constructor
    · intro h
      refine Nat.lt_pow_two_of_testBit _ fun k hk => ?_
      rw [BitVec.testBit_toNat, ← h, getLsbD_incarnation_of_upd hw, decide_eq_false (by omega),
        Bool.false_and]
    · intro h
      refine BitVec.eq_of_getLsbD_eq fun k _ => ?_
      rw [getLsbD_incarnation_of_upd hw]
      by_cases hlt : k + ownedBits modular < 4
      · rw [decide_eq_true hlt, Bool.true_and]
      · have hk : i.getLsbD k = false := BitVec.testBit_toNat i ▸ Nat.testBit_lt_two_pow
          (h.trans_le (Nat.pow_le_pow_right (by decide) (by omega)))
        rw [hk, Bool.and_false]
  have h7 : incarnationMax = 7 := rfl
  rw [hbits]
  cases modular with
  | false => simp only [ownedBits, true_or, iff_true, Bool.false_eq_true, if_false]; omega
  | true => simp only [ownedBits, if_true, Bool.true_eq_false, false_or]; omega

/-- The address of an entry is read back, whichever owned bits are set. -/
theorem addr_of_or (ha : 64 ∣ a.toNat) {m : BitVec w}
    (hm : ∀ k, m.getLsbD k = true → k < ownedBits modular) : lockGetAddr modular (a ||| m) = a := by
  refine BitVec.eq_of_getLsbD_eq fun k hk => ?_
  have hcases := ownedBits_cases modular
  rw [lockGetAddr, BitVec.getLsbD_and, BitVec.getLsbD_or, BitVec.getLsbD_not, getLsbD_ownedMask]
  by_cases hlt : k < ownedBits modular
  · simp [hlt, getLsbD_of_aligned ha (k := k) (by omega)]
  · have hmk : m.getLsbD k = false := by simpa using mt (hm k) hlt
    rw [hmk]
    simp [hlt, hk]

/-- A word without owned bits does not test as owned. -/
theorem not_owned {x : BitVec w} (hx : ∀ k < ownedBits modular, x.getLsbD k = false) :
    lockGetOwned modular x = 0#w := by
  refine BitVec.eq_of_getLsbD_eq fun k _ => ?_
  rw [lockGetOwned, BitVec.getLsbD_and, getLsbD_ownedMask, BitVec.getLsbD_zero]
  by_cases hlt : k < ownedBits modular
  · rw [hx k hlt, Bool.false_and]
  · rw [decide_eq_false hlt, Bool.and_false, Bool.and_false]

/-- A word with an owned bit does. -/
theorem owned {x : BitVec w} {k : ℕ} (hk : k < ownedBits modular) (hx : x.getLsbD k = true) :
    lockGetOwned modular x ≠ 0#w := by
  intro h
  have hkw : k < w := by
    by_contra hge
    rw [BitVec.getLsbD_of_ge _ _ (Nat.le_of_not_lt hge)] at hx
    cases hx
  have hbit : (lockGetOwned modular x).getLsbD k = true := by
    rw [lockGetOwned, BitVec.getLsbD_and, getLsbD_ownedMask, hx, decide_eq_true hkw, decide_eq_true hk]
    rfl
  rw [h, BitVec.getLsbD_zero] at hbit
  cases hbit

/-- `LOCK_UNIT` is not the address of an entry with some owned bits. -/
theorem or_ne_unit (hw : 8 ≤ w) (ha : 64 ∣ a.toNat) {m : BitVec w}
    (hm : ∀ k, m.getLsbD k = true → k < ownedBits modular) : a ||| m ≠ lockUnit := by
  intro h
  have hcases := ownedBits_cases modular
  have hm2 : m.getLsbD 2 = false := by
    by_contra hne
    have := hm 2 (by simpa using hne)
    omega
  have hbit := congrArg (·.getLsbD 2) h
  simp only [BitVec.getLsbD_or, getLsbD_of_aligned ha (k := 2) (by decide), hm2, lockUnit,
    BitVec.getLsbD_not, BitVec.getLsbD_zero] at hbit
  simp [show 2 < w by omega] at hbit

/-! ## The laws of the encoding -/

/-- What is put into a lock word is read back: a timestamp, an incarnation that is added to any word, and
the address of an entry under any owned bits. The incarnation does not change the timestamp, and no
timestamp changes it; words without an owner do not test as owned, words with an owner do, and they are
not `LOCK_UNIT`. -/
structure Lawful (modular : Bool) (t i a : BitVec w) : Prop where
  timestamp : lockGetTimestamp modular (lockSetTimestamp modular t) = t
  fresh : lockGetIncarnation modular (lockSetTimestamp modular t) = 0#w
  incarnation : ∀ l, lockGetIncarnation modular (lockUpdIncarnation modular l i) = i
  kept : ∀ l, lockGetTimestamp modular (lockUpdIncarnation modular l i) = lockGetTimestamp modular l
  address : lockGetAddr modular (lockSetAddrWrite a) = a
  readAddress : modular = true → lockGetAddr modular (lockSetAddrRead a) = a
  upgraded : modular = true → lockGetAddr modular (lockUpgrade (lockSetAddrRead a)) = a
  unowned : lockGetOwned modular (lockSetTimestamp modular t) = 0#w
  stillUnowned : ∀ l, lockGetOwned modular (lockUpdIncarnation modular l i) = 0#w
  written : lockGetWrite (lockSetAddrWrite a) ≠ 0#w ∧ lockGetOwned modular (lockSetAddrWrite a) ≠ 0#w
  read : modular = true → lockGetRead (lockSetAddrRead a) ≠ 0#w ∧
    lockGetOwned modular (lockSetAddrRead a) ≠ 0#w
  unit : lockSetAddrWrite a ≠ lockUnit
  readUnit : modular = true → lockSetAddrRead a ≠ lockUnit ∧
    lockUpgrade (lockSetAddrRead a) ≠ lockUnit

/-- The mask lies in the bits that say that a lock is held. -/
theorem writeMask_lt (k : ℕ) (h : (writeMask : BitVec w).getLsbD k = true) :
    k < ownedBits modular := by
  have hcases := ownedBits_cases modular
  rw [getLsbD_writeMask] at h
  have hk : k = 0 := by simpa using (Bool.and_eq_true_iff.1 h).2
  omega

/-- The mask lies in the bits that say that a lock is held. -/
theorem readMask_lt (k : ℕ) (h : (readMask : BitVec w).getLsbD k = true) : k < ownedBits true := by
  rw [getLsbD_readMask] at h
  have hk : k = 1 := by simpa using (Bool.and_eq_true_iff.1 h).2
  subst hk
  decide

/-- The masks lie in the bits that say that a lock is held. -/
theorem bothMasks_lt (k : ℕ) (h : (readMask ||| writeMask : BitVec w).getLsbD k = true) :
    k < ownedBits true := by
  rw [BitVec.getLsbD_or, Bool.or_eq_true] at h
  exact h.elim (readMask_lt k) (writeMask_lt k)

/-- A timestamp comes without an owner and with the incarnation 0. -/
theorem getLsbD_setTimestamp {k : ℕ} (hk : k < lockBits modular) :
    (lockSetTimestamp modular t).getLsbD k = false := by
  rw [lockSetTimestamp, BitVec.getLsbD_shiftLeft, decide_eq_true hk]
  simp

/-- A commit stores no incarnation number. -/
theorem incarnation_of_set : lockGetIncarnation modular (lockSetTimestamp modular t) = 0#w := by
  refine BitVec.eq_of_getLsbD_eq fun k _ => ?_
  have hlock := lockBits_eq modular
  have hcases := ownedBits_cases modular
  rw [lockGetIncarnation, BitVec.getLsbD_ushiftRight, BitVec.getLsbD_and, getLsbD_incarnationMask,
    BitVec.getLsbD_zero]
  by_cases hlt : ownedBits modular + k < 4
  · rw [getLsbD_setTimestamp (by omega), Bool.false_and]
  · rw [decide_eq_false (show ¬ (1 ≤ ownedBits modular + k ∧ ownedBits modular + k < 4) by omega),
      Bool.and_false, Bool.and_false]

/-- An address with a written bit. -/
theorem written_ne_zero (hw : 8 ≤ w) (x : BitVec w) : lockGetWrite (x ||| writeMask) ≠ 0#w := by
  intro h
  have hbit := congrArg (·.getLsbD 0) h
  simp only [lockGetWrite, BitVec.getLsbD_and, BitVec.getLsbD_or, getLsbD_writeMask,
    BitVec.getLsbD_zero] at hbit
  simp [show 0 < w by omega] at hbit

/-- A lock that is held for reading says so. -/
theorem read_ne_zero (hw : 8 ≤ w) (x : BitVec w) : lockGetRead (x ||| readMask) ≠ 0#w := by
  intro h
  have hbit := congrArg (·.getLsbD 1) h
  simp only [lockGetRead, BitVec.getLsbD_and, BitVec.getLsbD_or, getLsbD_readMask,
    BitVec.getLsbD_zero] at hbit
  simp [show 1 < w by omega] at hbit

/-- The encoding is lawful for all timestamps up to `VERSION_MAX + MAX_THREADS`, all incarnations up to
`INCARNATION_MAX` and all addresses of entries, if and only if there is one owned bit or the incarnation is
at most 3. -/
theorem lawful_iff (hw : 8 ≤ w) (ht : t ≤ versionMax modular + maxThreads)
    (hi : i.toNat ≤ incarnationMax) (ha : 64 ∣ a.toNat) :
    Lawful modular t i a ↔ modular = false ∨ i.toNat ≤ 3 := by
  have hcases := ownedBits_cases modular
  constructor
  · exact fun h => (incarnation_of_upd_iff hw hi).1 (h.incarnation 0#w)
  · intro h
    exact {
      timestamp := timestamp_of_set ht
      fresh := incarnation_of_set
      incarnation := fun l => (incarnation_of_upd_iff hw hi).2 h
      kept := fun l => timestamp_of_upd hi
      address := addr_of_or ha writeMask_lt
      readAddress := fun hm => by
        subst hm
        exact addr_of_or ha readMask_lt
      upgraded := fun hm => by
        subst hm
        rw [lockUpgrade, lockSetAddrRead, BitVec.or_assoc]
        exact addr_of_or ha bothMasks_lt
      unowned := not_owned fun k hk => getLsbD_setTimestamp (by rw [lockBits_eq]; omega)
      stillUnowned := fun l => not_owned fun k hk => by
        rw [getLsbD_updIncarnation (by omega), if_pos (by omega), decide_eq_false (by omega),
          Bool.false_and]
      written := by
        refine ⟨written_ne_zero hw a, owned (k := 0) (by omega) ?_⟩
        rw [lockSetAddrWrite, BitVec.getLsbD_or, getLsbD_writeMask, decide_eq_true (show 0 < w by omega)]
        simp
      read := fun hm => by
        subst hm
        refine ⟨read_ne_zero hw a, owned (k := 1) (by decide) ?_⟩
        rw [lockSetAddrRead, BitVec.getLsbD_or, getLsbD_readMask, decide_eq_true (show 1 < w by omega)]
        simp
      unit := by
        have hm : ∀ k, (writeMask : BitVec w).getLsbD k = true → k < ownedBits modular := writeMask_lt
        exact or_ne_unit hw ha hm
      readUnit := fun hm => by
        subst hm
        refine ⟨or_ne_unit hw ha readMask_lt, ?_⟩
        rw [lockUpgrade, lockSetAddrRead, BitVec.or_assoc]
        exact or_ne_unit hw ha bothMasks_lt }

/-- The largest incarnation of a 64-bit word with one owned bit. -/
theorem lawful_incarnationMax : Lawful false (5#64) (7#64) (64#64) :=
  (lawful_iff (by decide) (by decide) (by decide) (by decide)).2 (.inl rfl)

/-- With two owned bits the incarnation 4 is read back as 0. -/
theorem incarnation_lost : ∃ t i a : BitVec 64, t ≤ versionMax true + maxThreads ∧
    i.toNat ≤ incarnationMax ∧ 64 ∣ a.toNat ∧ ¬ Lawful true t i a :=
  ⟨5, 4, 64, by decide, by decide, by decide, fun h => absurd (h.incarnation 0) (by decide)⟩

/-! ## Words as numbers -/

/-- With one owned bit, the operations on numbers are those on words. -/
theorem toNat_getTimestamp : (lockGetTimestamp false l).toNat = TinyStm.lockGetTimestamp l.toNat :=
  BitVec.toNat_ushiftRight ..

/-- `LOCK_SET_TIMESTAMP` in natural numbers. -/
theorem toNat_setTimestamp (ht : t.toNat < 2 ^ (w - 4)) (hw : 4 ≤ w) :
    (lockSetTimestamp false t).toNat = TinyStm.lockSetTimestamp t.toNat := by
  have hlt : t.toNat <<< 4 < 2 ^ w := by
    have hpow : 2 ^ w = 2 ^ (w - 4) * 2 ^ 4 := by rw [← Nat.pow_add, Nat.sub_add_cancel hw]
    rw [Nat.shiftLeft_eq, hpow]
    exact Nat.mul_lt_mul_of_pos_right ht (by decide)
  exact (BitVec.toNat_shiftLeft ..).trans (Nat.mod_eq_of_lt hlt)

/-- `LOCK_GET_INCARNATION` in natural numbers. -/
theorem toNat_getIncarnation (hw : 8 ≤ w) :
    (lockGetIncarnation false l).toNat = TinyStm.lockGetIncarnation l.toNat := by
  have hmask : (incarnationMask : BitVec w).toNat = incarnationMax <<< 1 :=
    (BitVec.toNat_ofNat ..).trans (Nat.mod_eq_of_lt
      ((show incarnationMax <<< 1 < 2 ^ 8 by decide).trans_le (Nat.pow_le_pow_right (by decide) hw)))
  rw [lockGetIncarnation, BitVec.toNat_ushiftRight, BitVec.toNat_and, hmask]
  rfl

/-- `LOCK_UPD_INCARNATION` in natural numbers. -/
theorem toNat_updIncarnation (hw : 8 ≤ w) (hi : i.toNat ≤ incarnationMax) :
    (lockUpdIncarnation false l i).toNat = TinyStm.lockUpdIncarnation l.toNat i.toNat := by
  refine Nat.eq_of_testBit_eq fun k => ?_
  rw [BitVec.testBit_toNat, TinyStm.lockUpdIncarnation, TinyStm.lockSetIncarnation, Nat.testBit_or,
    Nat.testBit_shiftLeft, Nat.testBit_shiftLeft, Nat.testBit_shiftRight, BitVec.testBit_toNat,
    BitVec.testBit_toNat]
  have hlock : TinyStm.lockBits = 4 := rfl
  have howned : TinyStm.ownedBits = ownedBits false := rfl
  rw [hlock, howned]
  by_cases hk : k < w
  · rw [getLsbD_updIncarnation hk]
    by_cases h4 : k < 4
    · simp [h4, Nat.not_le.2 h4]
    · have hone : ownedBits false = 1 := rfl
      rw [if_neg h4, decide_eq_true (show k ≥ 4 by omega), decide_eq_true (show k ≥ ownedBits false by omega),
        Nat.add_sub_cancel' (by omega), Bool.true_and, Bool.true_and]
  · have hone : ownedBits false = 1 := rfl
    rw [BitVec.getLsbD_of_ge _ _ (by omega), BitVec.getLsbD_of_ge _ (4 + (k - 4)) (by omega),
      getLsbD_of_incarnation hi (k := k - ownedBits false) (by omega), Bool.and_false, Bool.and_false]
    rfl

end TinyStm.Encoding
