import TinyStm.Conc.Small
import Mathlib.Algebra.BigOperators.Group.Multiset.Basic
import Mathlib.Algebra.BigOperators.Ring.Multiset
import Mathlib.Algebra.Field.Basic
import Mathlib.Data.Nat.Cast.Field
import Mathlib.Tactic.FieldSimp
import Mathlib.Tactic.Ring

/-!
# Mean and variance in one pass

The mean of a multiset of numbers and the sum of the squared distances from it, and how they change when a
number is added: the recurrences that compute them in one pass.
-/

namespace Moments

variable {K : Type} [Field K]

/-- The arithmetic mean, 0 if there are no numbers. -/
def mean (s : Multiset K) : K := s.sum / s.card

/-- The sum of the squared distances from `c`. -/
def squaresFrom (c : K) (s : Multiset K) : K := (s.map fun v => (v - c) ^ 2).sum

/-- The sum of the squared distances from the mean. -/
def squares (s : Multiset K) : K := squaresFrom (mean s) s

theorem mean_zero : mean (0 : Multiset K) = 0 := by
  rw [mean, Multiset.sum_zero, zero_div]

theorem squaresFrom_cons (c n : K) (s : Multiset K) :
    squaresFrom c (n ::ₘ s) = (n - c) ^ 2 + squaresFrom c s := by
  rw [squaresFrom, Multiset.map_cons, Multiset.sum_cons, squaresFrom]

variable [CharZero K]

theorem card_mul_mean (s : Multiset K) : s.card * mean s = s.sum := by
  by_cases hs : s = 0
  · subst hs
    rw [Multiset.card_zero, Nat.cast_zero, zero_mul, Multiset.sum_zero]
  · have hcard : (s.card : K) ≠ 0 := Nat.cast_ne_zero.2 (mt Multiset.card_eq_zero.1 hs)
    exact mul_div_cancel₀ _ hcard

/-- The recurrence of the mean. -/
theorem mean_cons (n : K) (s : Multiset K) :
    mean (n ::ₘ s) = mean s + (n - mean s) / (s.card + 1) := by
  have hcard : (s.card : K) + 1 ≠ 0 := Nat.cast_add_one_ne_zero _
  rw [mean, Multiset.sum_cons, Multiset.card_cons, Nat.cast_succ, ← card_mul_mean s]
  field_simp
  ring

/-- The distances from the mean cancel out. -/
theorem sum_sub_mean (s : Multiset K) : (s.map fun v => v - mean s).sum = 0 := by
  rw [Multiset.sum_map_sub, Multiset.map_id', Multiset.map_const', Multiset.sum_replicate, nsmul_eq_mul,
    card_mul_mean, sub_self]

/-- The squared distances from any other number are larger. -/
theorem squaresFrom_eq (c : K) (s : Multiset K) :
    squaresFrom c s = squares s + s.card * (mean s - c) ^ 2 := by
  have hsplit : ∀ v : K, (v - c) ^ 2 =
      (v - mean s) ^ 2 + 2 * (mean s - c) * (v - mean s) + (mean s - c) ^ 2 := fun v => by ring
  rw [squaresFrom, Multiset.map_congr rfl fun v _ => hsplit v, Multiset.sum_map_add,
    Multiset.sum_map_add, Multiset.sum_map_mul_left, sum_sub_mean, mul_zero, add_zero,
    Multiset.map_const', Multiset.sum_replicate, nsmul_eq_mul]
  rfl

/-- The recurrence of the sum of the squared distances. -/
theorem squares_cons (n : K) (s : Multiset K) :
    squares (n ::ₘ s) = squares s + (n - mean s) * (n - mean (n ::ₘ s)) := by
  have hcard : (s.card : K) + 1 ≠ 0 := Nat.cast_add_one_ne_zero _
  rw [squares, squaresFrom_cons, squaresFrom_eq, mean_cons]
  field_simp
  ring

end Moments
