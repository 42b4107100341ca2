import HorizonUct.Decimal.Shortest
import HorizonUct.Proofs.Binary64.Scientific

/-!
# The shortest decimal lies with its double

Digits are sought on grids that grow finer by tens. The point that is taken from
a grid is not beyond the midpoints around the double, by the very comparison
that takes it, and if none were taken the exact expansion would stand in. So
the decimal is closest to that double wherever it is from.
-/

namespace HorizonUct.Decimal

open Binary64 (Nearest Closest zpow_eq_div)

/-- The value of a decimal. -/
noncomputable def Digits.value (d : Digits) : ℝ := d.digits * (10 : ℝ) ^ d.exponent

namespace Magnitude

variable {x : Magnitude} {tie : Tie} {power : ℤ} {d : Digits} {scale : ℕ}

/-- How many quarters of a unit the midpoint below a value lies below it. -/
def margin (x : Magnitude) : ℕ := if x.closerBelow then 1 else 2

/-- A natural lies between the midpoints around a value, on a scale where both are naturals. -/
structure Between (x : Magnitude) (scale n : ℕ) : Prop where
  /-- It is not below the midpoint below. -/
  above : (4 * x.significand - x.margin) * scale ≤ n
  /-- It is not above the midpoint above. -/
  below : n ≤ (4 * x.significand + 2) * scale
  /-- With an odd significand it is not a midpoint. -/
  inside : x.significand % 2 ≠ 0 →
    (4 * x.significand - x.margin) * scale < n ∧ n < (4 * x.significand + 2) * scale

/-- What is at most the value, and reads back, lies between the midpoints. -/
theorem between_of_le {n : ℕ} (some : 0 < scale) (le : n ≤ 4 * x.significand * scale)
    (reads : if x.significand % 2 == 0 then (4 * x.significand - x.margin) * scale ≤ n
      else (4 * x.significand - x.margin) * scale < n) : x.Between scale n := by
  have less : 4 * x.significand * scale < (4 * x.significand + 2) * scale :=
    Nat.mul_lt_mul_of_pos_right (by omega) some
  split at reads
  · next even =>
    exact ⟨reads, by omega, fun odd => absurd (beq_iff_eq.mp even) odd⟩
  · exact ⟨reads.le, by omega, fun _ => ⟨reads, by omega⟩⟩

/-- So does what is more than the value, and reads back. -/
theorem between_of_lt {n : ℕ} (lt : 4 * x.significand * scale < n)
    (reads : if x.significand % 2 == 0 then n ≤ (4 * x.significand + 2) * scale
      else n < (4 * x.significand + 2) * scale) : x.Between scale n := by
  have less : (4 * x.significand - x.margin) * scale ≤ 4 * x.significand * scale :=
    Nat.mul_le_mul_right _ (Nat.sub_le _ _)
  split at reads
  · next even =>
    exact ⟨by omega, reads, fun odd => absurd (beq_iff_eq.mp even) odd⟩
  · exact ⟨by omega, reads.le, fun _ => ⟨by omega, reads⟩⟩

/-- What is picked on a grid lies between the midpoints. -/
theorem onGrid_eq_some (h : x.onGrid tie power = some d) :
    d.exponent = power ∧ x.Between
      (Nat.pow 2 (x.exponent - 2).toNat * Nat.pow 10 (-power).toNat)
      (d.digits * (Nat.pow 2 (2 - x.exponent).toNat * Nat.pow 10 power.toNat)) := by
  unfold onGrid at h
  extract_lets up unit value least most ends below above belowReads aboveReads pick at h
  have up_pos : 0 < up := Nat.mul_pos (Nat.pow_pos (by decide)) (Nat.pow_pos (by decide))
  have unit_pos : 0 < unit := Nat.mul_pos (Nat.pow_pos (by decide)) (Nat.pow_pos (by decide))
  have low (reads : belowReads) : x.Between up (below * unit) :=
    between_of_le up_pos (Nat.div_mul_le_self _ _) reads
  have high (reads : aboveReads) : x.Between up (above * unit) :=
    between_of_lt (Nat.lt_mul_of_div_lt (Nat.lt_succ_self _) unit_pos) reads
  split at h
  · next reads =>
    split at h
    · next reads' =>
      split at h <;> cases h
      · exact ⟨rfl, low reads⟩
      · exact ⟨rfl, high reads'⟩
      · exact ⟨rfl, high reads'⟩
      · refine ⟨rfl, ?_⟩
        dsimp only
        split
        · exact low reads
        · exact high reads'
    · cases h
      exact ⟨rfl, low reads⟩
  · split at h
    · next reads =>
      cases h
      exact ⟨rfl, high reads⟩
    · cases h

/-- The midpoint below a value that is not nought is not below nought. -/
theorem cast_margin (pos : 0 < x.significand) :
    ((4 * x.significand - x.margin : ℕ) : ℝ) = 4 * x.significand - x.margin := by
  have less : x.margin ≤ 4 * x.significand := by
    unfold margin
    split <;> omega
  push_cast [less]
  rfl

/-- What lies between the midpoints is not beyond them. -/
theorem Between.closest {n : ℕ} {y : ℝ} (between : x.Between scale n) (some : 0 < scale)
    (scaled : y / (2 : ℝ) ^ x.exponent * (4 * scale) = n) (pos : 0 < x.significand)
    (closer : x.significand = 2 ^ 52 → -1074 < x.exponent → x.closerBelow = true) :
    Closest x.significand x.exponent y := by
  have unit : (0 : ℝ) < scale := Nat.cast_pos.mpr some
  have above : (4 * x.significand - x.margin : ℝ) * scale ≤ n := by
    rw [← cast_margin pos]
    exact_mod_cast between.above
  have below : (n : ℝ) ≤ (4 * x.significand + 2) * scale := by exact_mod_cast between.below
  have margin_le : (x.margin : ℝ) ≤ 2 := by
    unfold margin
    split <;> norm_num
  rw [← scaled, ← mul_assoc] at above below
  have above := le_of_mul_le_mul_right above unit
  have below := le_of_mul_le_mul_right below unit
  refine ⟨⟨by linarith, by linarith, fun tie => ?_⟩, fun full least => ?_⟩
  · by_contra odd
    obtain ⟨above, below⟩ := between.inside fun even => odd (Nat.even_iff.mpr even)
    have above : (4 * x.significand - x.margin : ℝ) * scale < n := by
      rw [← cast_margin pos]
      exact_mod_cast above
    have below : (n : ℝ) < (4 * x.significand + 2) * scale := by exact_mod_cast below
    rw [← scaled, ← mul_assoc] at above below
    have above := lt_of_mul_lt_mul_right above unit.le
    have below := lt_of_mul_lt_mul_right below unit.le
    rcases tie with tie | tie <;> linarith
  · have one : (x.margin : ℝ) = 1 := by rw [margin, if_pos (closer full least), Nat.cast_one]
    linarith

/-- The value of a decimal on the scale of a grid. -/
theorem scale_value (x : Magnitude) (d : Digits) : d.value / (2 : ℝ) ^ x.exponent *
    (4 * (Nat.pow 2 (x.exponent - 2).toNat * Nat.pow 10 (-d.exponent).toNat : ℕ)) =
      (d.digits * (Nat.pow 2 (2 - x.exponent).toNat * Nat.pow 10 d.exponent.toNat) : ℕ) := by
  have two : (2 : ℝ) ^ x.exponent =
      4 * ((2 : ℝ) ^ (x.exponent - 2).toNat / 2 ^ (2 - x.exponent).toNat) := by
    have split := zpow_eq_div two_ne_zero (x.exponent - 2)
    rw [neg_sub, zpow_sub₀ two_ne_zero] at split
    rw [← split]
    norm_num
    ring
  rw [Digits.value, two, zpow_eq_div (by norm_num : (10 : ℝ) ≠ 0) d.exponent]
  simp only [Nat.pow_eq]
  push_cast
  field_simp

/-- What is picked on a grid is not beyond the midpoints. -/
theorem closest_of_onGrid (h : x.onGrid tie power = some d) (pos : 0 < x.significand)
    (closer : x.significand = 2 ^ 52 → -1074 < x.exponent → x.closerBelow = true) :
    Closest x.significand x.exponent d.value := by
  obtain ⟨rfl, between⟩ := onGrid_eq_some h
  exact between.closest (Nat.mul_pos (Nat.pow_pos (by decide)) (Nat.pow_pos (by decide)))
    (scale_value x d) pos closer

/-- The exact expansion is the value. -/
theorem value_exact (x : Magnitude) : x.exact.value = x.significand * (2 : ℝ) ^ x.exponent := by
  unfold exact Digits.value
  split
  · next negative =>
    have ten : (10 : ℝ) ^ x.exponent = 2 ^ x.exponent * 5 ^ x.exponent := by
      rw [← mul_zpow]
      norm_num
    have five : (5 : ℝ) ^ (-x.exponent).toNat = (5 ^ x.exponent)⁻¹ := by
      rw [← zpow_natCast, Int.toNat_of_nonneg (by omega), zpow_neg]
    have some : (5 : ℝ) ^ x.exponent ≠ 0 := (zpow_pos (by norm_num) _).ne'
    simp only [Nat.pow_eq]
    push_cast
    rw [ten, five]
    field_simp
  · next nonneg =>
    simp only [Nat.pow_eq]
    push_cast
    rw [zpow_zero, mul_one, ← zpow_natCast, Int.toNat_of_nonneg (not_lt.mp nonneg)]

/-- The shortest decimal of a value is not beyond the midpoints around it. -/
theorem closest_shortest (tie : Tie) (pos : 0 < x.significand)
    (closer : x.significand = 2 ^ 52 → -1074 < x.exponent → x.closerBelow = true) :
    Closest x.significand x.exponent (x.shortest tie).value := by
  have some : (x.significand == 0) = false := beq_eq_false_iff_ne.mpr pos.ne'
  rw [shortest, some, if_neg Bool.false_ne_true]
  cases found : (List.range 24).findSome? fun i : ℕ => x.onGrid tie (x.ceilingPower - i) with
  | some d =>
    obtain ⟨i, -, picked⟩ := List.exists_of_findSome?_eq_some found
    exact closest_of_onGrid picked pos closer
  | none =>
    have unit : (2 : ℝ) ^ x.exponent ≠ 0 := (zpow_pos two_pos _).ne'
    have itself : x.exact.value / (2 : ℝ) ^ x.exponent = x.significand := by
      rw [value_exact, mul_div_cancel_right₀ _ unit]
    rw [Option.getD_none]
    refine ⟨itself ▸ Binary64.nearest_self _, fun _ _ => ?_⟩
    rw [itself]
    linarith

end Magnitude

end HorizonUct.Decimal
