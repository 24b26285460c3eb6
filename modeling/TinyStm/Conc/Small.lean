import Mathlib.Algebra.NeZero

/-!
# Small index types

The threads, addresses and locks of concrete runs are numerals of `Fin n`. With these instances the
type of a numeral is all that it carries.
-/

namespace Small

instance neZeroOne : @NeZero Nat Zero.ofOfNat0 1 := ⟨Nat.one_ne_zero⟩
instance neZeroTwo : @NeZero Nat Zero.ofOfNat0 2 := ⟨Nat.succ_ne_zero 1⟩
instance neZeroThree : @NeZero Nat Zero.ofOfNat0 3 := ⟨Nat.succ_ne_zero 2⟩
instance neZeroFour : @NeZero Nat Zero.ofOfNat0 4 := ⟨Nat.succ_ne_zero 3⟩
instance neZeroFive : @NeZero Nat Zero.ofOfNat0 5 := ⟨Nat.succ_ne_zero 4⟩

end Small
