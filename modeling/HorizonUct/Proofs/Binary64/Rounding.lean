import Mathlib

/-!
# Rounding keeps the order

A double has a mantissa of 53 bits. The operations of the format first come to
a mantissa of more bits, with two bits that tell how the exact result lies
above it, and round this to the nearest mantissa that fits, a tie to the even
one. A greater result has no smaller exponent; with the same exponent it is
not rounded to less, and with a greater one what it is rounded to is at least
the power of two that the smaller result stays below. So the order of exact
results is kept, as far as the exponent is not limited from above.
-/

namespace HorizonUct.Binary64

open Float.Model (Format UnpackedFloat totalExponent)
open Float.Model.UnpackedFloat (Sign Accuracy ExtendedMantissa shiftToExponent
  shiftToTargetExponent roundWithAccuracy)

/-- What a mantissa with a round bit and a sticky bit tells of a quantity: whether
it is the mantissa, or else lies nearer to it, to the next one or half the way. -/
def Represents (em : ExtendedMantissa) (y : ℝ) : Prop :=
  match em.roundBit, em.stickyBit with
  | false, false => y = em.mantissa
  | false, true => em.mantissa < y ∧ y - em.mantissa < em.mantissa + 1 - y
  | true, false => y - em.mantissa = em.mantissa + 1 - y
  | true, true => em.mantissa + 1 - y < y - em.mantissa ∧ y < em.mantissa + 1

/-- A natural is nearest to a quantity, and even if another one is as near. -/
structure Nearest (y : ℝ) (r : ℕ) : Prop where
  /-- The quantity is not further below than half. -/
  above : (r : ℝ) - 1 / 2 ≤ y
  /-- Nor further above. -/
  below : y ≤ (r : ℝ) + 1 / 2
  /-- Half the way from another one it is even. -/
  even : y = r - 1 / 2 ∨ y = r + 1 / 2 → Even r

variable {em : ExtendedMantissa} {x y : ℝ} {r s m : ℕ} {e t : ℤ}

/-- A natural is nearest to itself. -/
theorem nearest_self (r : ℕ) : Nearest r r := by
  refine ⟨by linarith, by linarith, fun tie => ?_⟩
  rcases tie with tie | tie <;> linarith

/-- The nearest natural to a greater quantity is not smaller. -/
theorem Nearest.mono (hx : Nearest x r) (hy : Nearest y s) (h : x ≤ y) : r ≤ s := by
  by_contra less
  have apart : (s : ℝ) + 1 ≤ r := by exact_mod_cast Nat.lt_of_not_le less
  -- both would lie half the way between two neighbours, and be even
  have tie : x = r - 1 / 2 := le_antisymm (by linarith [hy.below]) hx.above
  have tie' : y = s + 1 / 2 := le_antisymm hy.below (by linarith [hx.above])
  have next : r = s + 1 := by
    have : (r : ℝ) = s + 1 := by linarith
    exact_mod_cast this
  have even := hx.even (.inl tie)
  rw [next] at even
  exact Nat.not_even_iff_odd.mpr (hy.even (.inr tie')).add_one even

/-- What a mantissa and its two bits represent is at least the mantissa, and
less than one more. -/
theorem Represents.bounds (h : Represents em y) : em.mantissa ≤ y ∧ y < em.mantissa + 1 := by
  obtain ⟨m, roundBit, stickyBit⟩ := em
  cases roundBit <;> cases stickyBit <;> simp only [Represents] at h ⊢
  · constructor <;> linarith
  · constructor <;> linarith [h.1, h.2]
  · constructor <;> linarith
  · constructor <;> linarith [h.1, h.2]

/-- A mantissa is rounded to what is nearest to the quantity it represents. -/
theorem Represents.nearest (h : Represents em y) : Nearest y em.roundedMantissa := by
  obtain ⟨m, roundBit, stickyBit⟩ := em
  cases roundBit <;> cases stickyBit <;>
    simp only [Represents, ExtendedMantissa.roundedMantissa, ExtendedMantissa.accuracy,
      Accuracy.roundToNearestEven] at h ⊢
  · exact h ▸ nearest_self m
  · refine ⟨by linarith [h.1], by linarith [h.2], fun tie => ?_⟩
    rcases tie with tie | tie <;> linarith [h.1, h.2]
  · -- a tie goes to the even neighbour
    rcases Nat.even_or_odd m with even | odd
    · rw [Nat.even_iff.mp even, Nat.add_zero]
      exact ⟨by linarith, by linarith, fun _ => even⟩
    · rw [Nat.odd_iff.mp odd]
      exact ⟨by push_cast; linarith, by push_cast; linarith, fun _ => odd.add_one⟩
  · refine ⟨by push_cast; linarith [h.1], by push_cast; linarith [h.2], fun tie => ?_⟩
    push_cast at tie
    rcases tie with tie | tie <;> linarith [h.1, h.2]

/-- Dropping the last bit of a mantissa halves the quantity. -/
theorem Represents.half (h : Represents em y) : Represents em.shiftRightOne (y / 2) := by
  obtain ⟨m, roundBit, stickyBit⟩ := em
  have split : ((m % 2 : ℕ) : ℝ) + 2 * ((m / 2 : ℕ) : ℝ) = m := by
    exact_mod_cast Nat.mod_add_div m 2
  rcases Nat.mod_two_eq_zero_or_one m with last | last
  · have bit : (m % 2 != 0) = false := by rw [last]; rfl
    rw [last, Nat.cast_zero] at split
    cases roundBit <;> cases stickyBit <;>
      simp only [Represents, ExtendedMantissa.shiftRightOne, bit, Bool.or_self, Bool.or_true,
        Bool.or_false] at h ⊢
    · linarith
    · constructor <;> linarith [h.1, h.2]
    · constructor <;> linarith
    · constructor <;> linarith [h.1, h.2]
  · have bit : (m % 2 != 0) = true := by rw [last]; rfl
    rw [last, Nat.cast_one] at split
    cases roundBit <;> cases stickyBit <;>
      simp only [Represents, ExtendedMantissa.shiftRightOne, bit, Bool.or_self, Bool.or_true,
        Bool.or_false] at h ⊢
    · linarith
    · constructor <;> linarith [h.1, h.2]
    · constructor <;> linarith
    · constructor <;> linarith [h.1, h.2]

/-- Dropping bits of a mantissa divides the quantity by a power of two. -/
theorem Represents.shift (h : Represents em y) (count : ℕ) :
    Represents (em >>> count) (y / 2 ^ count) := by
  show Represents (count.repeat ExtendedMantissa.shiftRightOne em) _
  induction count with
  | zero => simpa [Nat.repeat] using h
  | succ count ih =>
    rw [Nat.repeat, pow_succ, ← div_div]
    exact ih.half

/-- A mantissa that is exact represents itself. -/
theorem represents_exact (m : ℕ) :
    Represents (.ofMantissaAndAccuracy m .exact) m :=
  rfl

/-- A quantity in the lower half above a mantissa. -/
theorem represents_lt (above : m < y) (below : y < m + 1 / 2) :
    Represents (.ofMantissaAndAccuracy m (.inexact .lt)) y :=
  ⟨above, by show y - m < m + 1 - y; linarith⟩

/-- A quantity half the way between two mantissas. -/
theorem represents_eq (half : y = m + 1 / 2) :
    Represents (.ofMantissaAndAccuracy m (.inexact .eq)) y := by
  show y - m = m + 1 - y
  linarith

/-- A quantity in the upper half above a mantissa. -/
theorem represents_gt (above : m + 1 / 2 < y) (below : y < m + 1) :
    Represents (.ofMantissaAndAccuracy m (.inexact .gt)) y :=
  ⟨by show m + 1 - y < y - m; linarith, below⟩

/-- A magnitude at the precision of the format, before a carry: the mantissa
is the nearest to it in units of the last place, which is the smallest that the
format has or one in which the magnitude fills the mantissa. -/
structure Placed (x : ℝ) (r : ℕ) (t : ℤ) : Prop where
  /-- The exponent is not too small. -/
  least : -1074 ≤ t
  /-- The magnitude fits the mantissa. -/
  fits : x < 2 ^ 53 * (2 : ℝ) ^ t
  /-- It fills the mantissa unless the exponent is the least. -/
  fills : t = -1074 ∨ 2 ^ 52 * (2 : ℝ) ^ t ≤ x
  /-- The mantissa is the nearest. -/
  nearest : Nearest (x / (2 : ℝ) ^ t) r

/-- What fits a mantissa stays below what fills one with a greater exponent. -/
theorem fits_le_fills {e t : ℤ} (h : e < t) :
    2 ^ 53 * (2 : ℝ) ^ e ≤ 2 ^ 52 * (2 : ℝ) ^ t := by
  have twice : (2 : ℝ) ^ (e + 1) ≤ (2 : ℝ) ^ t := zpow_le_zpow_right₀ one_le_two h
  rw [zpow_add_one₀ two_ne_zero] at twice
  linarith

/-- The mantissa has at most 53 bits or carries into the next place. -/
theorem Placed.le (placed : Placed x r t) : r ≤ 2 ^ 53 := by
  have unit : (0 : ℝ) < (2 : ℝ) ^ t := zpow_pos two_pos t
  have scaled : x / (2 : ℝ) ^ t ≤ (2 ^ 53 : ℕ) := by
    rw [div_le_iff₀ unit, Nat.cast_pow, Nat.cast_ofNat]
    exact placed.fits.le
  exact placed.nearest.mono (nearest_self _) scaled

/-- Above the least exponent the mantissa is full. -/
theorem Placed.full (placed : Placed x r t) (above : t ≠ -1074) : 2 ^ 52 ≤ r := by
  have unit : (0 : ℝ) < (2 : ℝ) ^ t := zpow_pos two_pos t
  have scaled : (2 ^ 52 : ℕ) ≤ x / (2 : ℝ) ^ t := by
    rw [le_div_iff₀ unit, Nat.cast_pow, Nat.cast_ofNat]
    exact placed.fills.resolve_left above
  exact (nearest_self _).mono placed.nearest scaled

/-- A greater magnitude is not rounded to less. -/
theorem Placed.mono {t' : ℤ} (hx : Placed x r t) (hy : Placed y s t') (h : x ≤ y) :
    r * (2 : ℝ) ^ t ≤ s * (2 : ℝ) ^ t' := by
  have unit : (0 : ℝ) < (2 : ℝ) ^ t := zpow_pos two_pos t
  rcases lt_trichotomy t t' with less | rfl | more
  · -- what the smaller one is rounded to stays below the least full mantissa of the other
    have high : (r : ℝ) ≤ 2 ^ 53 := by exact_mod_cast hx.le
    have low : (2 : ℝ) ^ 52 ≤ s := by exact_mod_cast hy.full (by have := hx.least; omega)
    have unit' : (0 : ℝ) < (2 : ℝ) ^ t' := zpow_pos two_pos t'
    calc r * (2 : ℝ) ^ t ≤ 2 ^ 53 * (2 : ℝ) ^ t := mul_le_mul_of_nonneg_right high unit.le
      _ ≤ 2 ^ 52 * (2 : ℝ) ^ t' := fits_le_fills less
      _ ≤ s * (2 : ℝ) ^ t' := mul_le_mul_of_nonneg_right low unit'.le
  · have scaled : x / (2 : ℝ) ^ t ≤ y / (2 : ℝ) ^ t := div_le_div_of_nonneg_right h unit.le
    have rounded : (r : ℝ) ≤ s := by exact_mod_cast hx.nearest.mono hy.nearest scaled
    exact mul_le_mul_of_nonneg_right rounded unit.le
  · -- a greater magnitude has no smaller exponent
    have fills := hx.fills.resolve_left (by have := hy.least; omega)
    have fits := hy.fits
    have apart := fits_le_fills more
    linarith

/-- The unit in the last place of a double whose first digit is in the given place. -/
def unit (place : ℤ) : ℤ := max (place - 53) (-1074)

/-- A mantissa at hand is at least as fine as that of a double. -/
def Fine (m : ℕ) (e : ℤ) : Prop := e ≤ unit (totalExponent m e)

/-- Shifting a mantissa that is fine enough leads to the unit of the double. -/
theorem Fine.shift (fine : Fine m e) (accuracy : Accuracy) :
    shiftToTargetExponent .binary64 m e accuracy =
      (ExtendedMantissa.ofMantissaAndAccuracy m accuracy >>> (unit (totalExponent m e) - e).toNat,
        unit (totalExponent m e)) := by
  have moved : e + ((unit (totalExponent m e) - e).toNat : ℤ) = unit (totalExponent m e) := by
    rw [Int.toNat_of_nonneg (sub_nonneg.mpr fine)]
    omega
  exact Prod.ext rfl moved

/-- A mantissa that comes with an accuracy stays the same. -/
theorem mantissa_ofMantissaAndAccuracy (m : ℕ) (accuracy : Accuracy) :
    (ExtendedMantissa.ofMantissaAndAccuracy m accuracy).mantissa = m := by
  rcases accuracy with _ | (_ | _ | _) <;> rfl

/-- What a mantissa with an accuracy represents is placed where it is shifted to. -/
theorem placed_of_represents {accuracy : Accuracy}
    (h : Represents (.ofMantissaAndAccuracy m accuracy) (x / (2 : ℝ) ^ e)) (fine : Fine m e) :
    Placed x (shiftToTargetExponent .binary64 m e accuracy).1.roundedMantissa
      (unit (totalExponent m e)) := by
  have unit_pos : (0 : ℝ) < (2 : ℝ) ^ e := zpow_pos two_pos e
  have bounds := h.bounds
  rw [mantissa_ofMantissaAndAccuracy, le_div_iff₀ unit_pos, div_lt_iff₀ unit_pos] at bounds
  rw [fine.shift]
  refine ⟨le_max_right _ _, ?_, ?_, ?_⟩
  · -- the first digit of the magnitude is not in a greater place than that of the mantissa
    have digits : (m : ℝ) + 1 ≤ 2 ^ (m.log2 + 1) := by exact_mod_cast Nat.lt_log2_self
    calc x < (m + 1) * (2 : ℝ) ^ e := bounds.2
      _ ≤ 2 ^ (m.log2 + 1) * (2 : ℝ) ^ e := mul_le_mul_of_nonneg_right digits unit_pos.le
      _ = (2 : ℝ) ^ ((m.log2 : ℤ) + 1 + e) := by rw [zpow_add₀ two_ne_zero]; norm_cast
      _ ≤ (2 : ℝ) ^ (53 + unit (totalExponent m e)) :=
        zpow_le_zpow_right₀ one_le_two (by unfold unit totalExponent; omega)
      _ = 2 ^ 53 * (2 : ℝ) ^ unit (totalExponent m e) := by rw [zpow_add₀ two_ne_zero]; norm_cast
  · by_cases least : unit (totalExponent m e) = -1074
    · exact .inl least
    · right
      unfold Fine unit totalExponent at *
      have some : m ≠ 0 := by
        rintro rfl
        rw [Nat.log2_zero] at fine least
        omega
      have digits : (2 : ℝ) ^ m.log2 ≤ m := by exact_mod_cast Nat.log2_self_le some
      have place : max ((m.log2 : ℤ) + 1 + e - 53) (-1074) = m.log2 + e - 52 := by omega
      rw [place]
      calc 2 ^ 52 * (2 : ℝ) ^ ((m.log2 : ℤ) + e - 52)
          = (2 : ℝ) ^ (52 + ((m.log2 : ℤ) + e - 52)) := by rw [zpow_add₀ two_ne_zero]; norm_cast
        _ = (2 : ℝ) ^ ((m.log2 : ℤ) + e) := by rw [add_sub_cancel]
        _ = 2 ^ m.log2 * (2 : ℝ) ^ e := by rw [zpow_add₀ two_ne_zero]; norm_cast
        _ ≤ m * (2 : ℝ) ^ e := mul_le_mul_of_nonneg_right digits unit_pos.le
        _ ≤ x := bounds.1
  · have shifted := h.shift (unit (totalExponent m e) - e).toNat
    have scale : (2 : ℝ) ^ e * 2 ^ (unit (totalExponent m e) - e).toNat =
        (2 : ℝ) ^ unit (totalExponent m e) := by
      rw [← zpow_natCast, ← zpow_add₀ two_ne_zero, Int.toNat_of_nonneg (sub_nonneg.mpr fine),
        add_sub_cancel]
    rw [div_div, scale] at shifted
    exact shifted.nearest

/-- A quantity at the precision of the format, given by its sign, its mantissa
before a carry and its exponent. -/
def settled (sign : Sign) (r : ℕ) (t : ℤ) : UnpackedFloat :=
  if h : r = 0 then .zero sign
  else if r = 2 ^ 53 then .finite sign (2 ^ 52) (t + 1) (by norm_num)
  else .finite sign r t (Nat.pos_of_ne_zero h)

/-- A mantissa that fits is not shifted again. -/
theorem shift_of_lt (small : r < 2 ^ 53) (least : -1074 ≤ t) :
    shiftToTargetExponent .binary64 r t .exact = (⟨r, false, false⟩, t) := by
  have digits : r.log2 ≤ 52 := by
    by_cases none : r = 0
    · simp [none]
    · exact Nat.le_of_lt_succ ((Nat.log2_lt none).mpr small)
  have still : (unit (totalExponent r t) - t).toNat = 0 := by
    unfold unit totalExponent
    omega
  show (ExtendedMantissa.ofMantissaAndAccuracy r .exact >>> (unit (totalExponent r t) - t).toNat,
    t + ((unit (totalExponent r t) - t).toNat : ℤ)) = _
  rw [still, Nat.cast_zero, add_zero]
  rfl

/-- A mantissa that carries is shifted by one place, and nothing is dropped. -/
theorem shift_of_carry (least : -1074 ≤ t) :
    shiftToTargetExponent .binary64 (2 ^ 53) t .exact = (⟨2 ^ 52, false, false⟩, t + 1) := by
  have once : (unit (totalExponent (2 ^ 53) t) - t).toNat = 1 := by
    unfold unit totalExponent
    rw [Nat.log2_two_pow]
    omega
  show (ExtendedMantissa.ofMantissaAndAccuracy (2 ^ 53) .exact >>>
      (unit (totalExponent (2 ^ 53) t) - t).toNat,
    t + ((unit (totalExponent (2 ^ 53) t) - t).toNat : ℤ)) = _
  rw [once]
  rfl

/-- Rounding ends with the nearest mantissa, after a carry if there is any. -/
theorem roundWithAccuracy_eq {accuracy : Accuracy} (sign : Sign)
    (h : Represents (.ofMantissaAndAccuracy m accuracy) (x / (2 : ℝ) ^ e)) (fine : Fine m e) :
    ∃ r t, Placed x r t ∧
      roundWithAccuracy .binary64 sign m e accuracy = settled sign r t := by
  have placed := placed_of_represents h fine
  refine ⟨_, _, placed, ?_⟩
  have place : (shiftToTargetExponent .binary64 m e accuracy).2 = unit (totalExponent m e) := by
    rw [fine.shift]
  unfold roundWithAccuracy
  dsimp only
  rw [place]
  generalize (shiftToTargetExponent .binary64 m e accuracy).1.roundedMantissa = r at placed ⊢
  generalize unit (totalExponent m e) = t at placed ⊢
  rcases lt_or_eq_of_le placed.le with small | rfl
  · rw [shift_of_lt small placed.least, settled]
    simp only [small.ne, if_false]
  · rw [shift_of_carry placed.least]
    rfl

end HorizonUct.Binary64
