import HorizonUct.Scalar
import Mathlib.Algebra.Order.Field.Basic
import Mathlib.Algebra.Order.Group.Abs

/-!
# Exact arithmetic

Over an ordered field the operations of a search never round, and every value
is finite. What stands for the logarithm and the root is left open.
-/

namespace HorizonUct

/-- The operations of an ordered field, with some logarithm and some root. -/
@[reducible]
def Scalar.exact {K : Type} [Field K] [LinearOrder K] (ln sqrt : K → K) : Scalar K where
  ofNat count := count
  le x y := decide (x ≤ y)
  lt x y := decide (x < y)
  abs x := |x|
  ln := ln
  sqrt := sqrt
  isFinite _ := true

/-- Exact arithmetic starts at the nought of the field. -/
theorem Scalar.zero_exact {K : Type} [Field K] [LinearOrder K] (ln sqrt : K → K) :
    @Scalar.zero K (Scalar.exact ln sqrt) = 0 :=
  Nat.cast_zero

/-- In exact arithmetic every value is a number. -/
theorem Scalar.isUndefined_exact {K : Type} [Field K] [LinearOrder K] (ln sqrt : K → K) (x : K) :
    @Scalar.isUndefined K (Scalar.exact ln sqrt) x = false := by
  let _ := Scalar.exact ln sqrt
  rw [Scalar.isUndefined, Bool.not_eq_false']
  exact decide_eq_true (le_refl x)

/-- In exact arithmetic a sum from left to right is the sum. -/
theorem Scalar.total_exact {K : Type} [Field K] [LinearOrder K] (ln sqrt : K → K) (xs : List K) :
    @Scalar.total K (Scalar.exact ln sqrt) xs = xs.sum := by
  have start : @Scalar.total K (Scalar.exact ln sqrt) xs =
      xs.foldl (· + ·) (-((0 : Nat) : K)) := rfl
  rw [start, Nat.cast_zero, neg_zero, List.sum_eq_foldl]

end HorizonUct
