import HorizonUct.Proofs.Exact
import Mathlib.Data.List.Induction

/-!
# Means that are learnt one return at a time

A node keeps no returns. It folds each one into its mean when it is told, with
the number of returns so far as the weight. Without rounding this comes to the
arithmetic mean.
-/

namespace HorizonUct

section Fold

variable {α : Type} [Scalar α]

/-- A mean into which one more return is folded, the given number of them in all. -/
def foldMean (count : Nat) (mean value : α) : α :=
  ((Scalar.ofNat count - Scalar.one) * mean + value) / Scalar.ofNat count

/-- The mean that folding in returns in order comes to. -/
def runningMean (returns : List α) : α :=
  (returns.zipIdx 1).foldl (fun mean (value, count) => foldMean count mean value) Scalar.zero

/-- The last return is folded in with the number of all returns. -/
theorem runningMean_concat (returns : List α) (value : α) :
    runningMean (returns ++ [value]) =
      foldMean (returns.length + 1) (runningMean returns) value := by
  rw [runningMean, List.zipIdx_append, List.foldl_append, Nat.add_comm]
  rfl

/-- One more return, or none, is folded in with the number of all returns. -/
theorem runningMean_append {more : List α} (single : more.length ≤ 1) (returns : List α) :
    runningMean (returns ++ more) =
      more.foldl (foldMean (returns.length + more.length)) (runningMean returns) := by
  rcases more with _ | ⟨value, _ | ⟨other, rest⟩⟩
  · rw [List.append_nil]
    rfl
  · exact runningMean_concat returns value
  · rw [List.length_cons, List.length_cons] at single
    omega

end Fold

/-- The arithmetic mean, once for each value, is their sum. -/
theorem length_mul_average {K : Type} [Field K] [LinearOrder K] [IsStrictOrderedRing K]
    (values : List K) : (values.length : K) * (values.sum / values.length) = values.sum := by
  cases values with
  | nil => rw [List.sum_nil, zero_div, mul_zero]
  | cons value rest => exact mul_div_cancel₀ _ (Nat.cast_ne_zero.mpr (Nat.succ_ne_zero _))

/-- In exact arithmetic the running mean is the arithmetic mean. -/
theorem runningMean_exact {K : Type} [Field K] [LinearOrder K] [IsStrictOrderedRing K]
    (ln sqrt : K → K) (returns : List K) :
    @runningMean K (Scalar.exact ln sqrt) returns = returns.sum / returns.length := by
  let _ := Scalar.exact ln sqrt
  induction returns using List.reverseRecOn with
  | nil =>
    rw [List.sum_nil, zero_div]
    exact Nat.cast_zero
  | append_singleton returns value ih =>
    have fold : foldMean (returns.length + 1) (returns.sum / returns.length) value =
        ((((returns.length + 1 : Nat) : K) - ((1 : Nat) : K)) * (returns.sum / returns.length) +
          value) / ((returns.length + 1 : Nat) : K) := rfl
    rw [runningMean_concat, ih, fold, List.sum_append, List.sum_singleton, List.length_append,
      List.length_singleton, Nat.cast_succ, Nat.cast_one, add_sub_cancel_right,
      length_mul_average returns]

end HorizonUct
