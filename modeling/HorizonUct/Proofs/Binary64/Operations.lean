import HorizonUct.Proofs.Binary64.Value

/-!
# Operations round exact results

The sum, the product and the quotient of two doubles and the root of one are
the exact ones at the precision of the format, unless they are not a number. So
is the double of a decimal. What is exact keeps an order, and hence so does what
it is rounded to.
-/

namespace HorizonUct.Binary64

open Float.Model (Format UnpackedFloat totalExponent)
open Float.Model.UnpackedFloat (Sign Accuracy roundWithAccuracy accuracyOfFraction divCore
  sqrtCore decreaseExponent)

variable {a b : UnpackedFloat} {m n : ℕ} {e : ℤ} {x : ℝ}

/-- What a mantissa with an accuracy represents is rounded. -/
theorem rounds_of_represents {accuracy : Accuracy} (sign : Sign) (nonneg : 0 ≤ x)
    (h : Represents (.ofMantissaAndAccuracy m accuracy) (x / (2 : ℝ) ^ e)) (fine : Fine m e) :
    Rounds ((signed sign x : ℝ) : EReal) (roundWithAccuracy .binary64 sign m e accuracy) := by
  obtain ⟨r, t, placed, same⟩ := roundWithAccuracy_eq sign h fine
  rw [same]
  exact .finite sign nonneg placed

/-- A mantissa that is fine enough is rounded. -/
theorem rounds_exact (sign : Sign) (fine : Fine m e) :
    Rounds ((signed sign (m * (2 : ℝ) ^ e) : ℝ) : EReal)
      (roundWithAccuracy .binary64 sign m e .exact) := by
  have unit : (0 : ℝ) < (2 : ℝ) ^ e := zpow_pos two_pos e
  have quotient : Represents (.ofMantissaAndAccuracy m .exact) (m * (2 : ℝ) ^ e / (2 : ℝ) ^ e) := by
    rw [mul_div_cancel_right₀ _ unit.ne']
    exact represents_exact m
  exact rounds_of_represents sign (by positivity) quotient fine

/-- A mantissa with enough digits is fine enough. -/
theorem fine_of_full (full : 2 ^ 52 ≤ m) (e : ℤ) : Fine m e := by
  have digits : 52 ≤ m.log2 := (Nat.le_log2 (by omega)).mpr full
  unfold Fine unit totalExponent
  omega

/-- So is one with the least exponent or a smaller one. -/
theorem fine_of_least (m : ℕ) (least : e ≤ -1074) : Fine m e :=
  least.trans (le_max_right _ _)

/-- The mantissas of two doubles multiply to one that is fine enough. -/
theorem Canonical.fine_mul {m' : ℕ} {e' : ℤ} (pos : 0 < m) (pos' : 0 < m')
    (canonical : Canonical m e) (canonical' : Canonical m' e') : Fine (m * m') (e + e') := by
  rcases canonical.full with full | least
  · exact fine_of_full (full.trans (Nat.le_mul_of_pos_right m pos')) _
  · rcases canonical'.full with full' | least'
    · exact fine_of_full (full'.trans (Nat.le_mul_of_pos_left m' pos)) _
    · exact fine_of_least _ (by omega)

/-- Signs of a product. -/
theorem signed_mul {R : Type} [Mul R] [HasDistribNeg R] (sign sign' : Sign) (x y : R) :
    signed (sign * sign') (x * y) = signed sign x * signed sign' y := by
  cases sign <;> cases sign'
  · exact (neg_mul_neg x y).symm
  · exact (neg_mul x y).symm
  · exact (mul_neg x y).symm
  · rfl

/-- A value with a sign among the extended reals. -/
theorem coe_signed (sign : Sign) (x : ℝ) :
    ((signed sign x : ℝ) : EReal) = signed sign (x : EReal) := by
  cases sign
  · exact EReal.coe_neg x
  · rfl

/-- Zero of either sign is nought. -/
theorem rounds_zero (sign : Sign) : Rounds 0 (.zero sign) :=
  rounds_self (.zero sign) UnpackedFloat.noConfusion

/-- What is not a number gives no number when it is multiplied. -/
theorem undefined_mul (b : UnpackedFloat) :
    UnpackedFloat.mul .binary64 .notANumber b = .notANumber := by
  cases b <;> rfl

/-- The product of two doubles is the exact one, rounded, unless it is not a number. -/
theorem rounds_mul (ha : Valid a) (hb : Valid b) :
    a.mul .binary64 b = .notANumber ∨ Rounds (value a * value b) (a.mul .binary64 b) := by
  cases ha with
  | undefined => cases hb <;> exact .inl rfl
  | infinity sign =>
    cases hb with
    | undefined | zero => exact .inl rfl
    | infinity sign' =>
      right
      have product := signed_mul sign sign' (⊤ : EReal) ⊤
      rw [EReal.top_mul_top] at product
      exact product ▸ .infinite _
    | @finite sign' m e pos =>
      right
      have product := signed_mul sign sign' (⊤ : EReal) (m * (2 : ℝ) ^ e : ℝ)
      rw [EReal.top_mul_coe_of_pos (size_pos pos e), ← coe_signed] at product
      exact product ▸ .infinite _
  | zero sign =>
    cases hb with
    | undefined | infinity => exact .inl rfl
    | zero | finite =>
      right
      exact (zero_mul (_ : EReal)).symm ▸ rounds_zero _
  | @finite sign m e pos canonical =>
    cases hb with
    | undefined => exact .inl rfl
    | infinity sign' =>
      right
      have product := signed_mul sign sign' ((m * (2 : ℝ) ^ e : ℝ) : EReal) ⊤
      rw [EReal.coe_mul_top_of_pos (size_pos pos e), ← coe_signed] at product
      exact product ▸ .infinite _
    | zero =>
      right
      exact (mul_zero (_ : EReal)).symm ▸ rounds_zero _
    | @finite sign' m' e' pos' canonical' =>
      right
      have rounded := rounds_exact (sign * sign') (canonical.fine_mul pos pos' canonical')
      have split : ((m * m' : ℕ) : ℝ) * (2 : ℝ) ^ (e + e') =
          m * (2 : ℝ) ^ e * (m' * (2 : ℝ) ^ e') := by
        rw [zpow_add₀ two_ne_zero]
        push_cast
        ring
      rw [split, signed_mul, EReal.coe_mul] at rounded
      exact rounded

/-- Bits that are put behind a mantissa do not change its value. -/
theorem value_shiftLeft (m k : ℕ) (e : ℤ) :
    ((m <<< k : ℕ) : ℝ) * (2 : ℝ) ^ (e - k) = m * (2 : ℝ) ^ e := by
  rw [Nat.shiftLeft_eq, zpow_sub₀ two_ne_zero, zpow_natCast]
  push_cast
  field_simp

/-- Neither does decreasing its exponent. -/
theorem value_decreaseExponent (m : ℕ) {e t : ℤ} (least : t ≤ e) :
    ((decreaseExponent m e t).1 : ℝ) * (2 : ℝ) ^ t = m * (2 : ℝ) ^ e := by
  have shifted := value_shiftLeft m (e - t).toNat e
  rw [Int.toNat_of_nonneg (sub_nonneg.mpr least), sub_sub_cancel] at shifted
  exact shifted

/-- Bits that are put behind a mantissa are digits of it. -/
theorem pow_le_shiftLeft (pos : 0 < m) (k : ℕ) : 2 ^ (m.log2 + k) ≤ m <<< k := by
  rw [pow_add, Nat.shiftLeft_eq]
  exact Nat.mul_le_mul_right _ (Nat.log2_self_le pos.ne')

/-- Any mantissa is rounded after its exponent has been decreased. -/
theorem rounds_round (sign : Sign) (pos : 0 < m) (e : ℤ) :
    Rounds ((signed sign (m * (2 : ℝ) ^ e) : ℝ) : EReal)
      (UnpackedFloat.round .binary64 sign m e) := by
  have some : 0 < m <<< (e - unit (totalExponent m e)).toNat := Nat.shiftLeft_pos_iff.mpr pos
  have digits : m.log2 + (e - unit (totalExponent m e)).toNat ≤
      (m <<< (e - unit (totalExponent m e)).toNat).log2 :=
    (Nat.le_log2 some.ne').mpr (pow_le_shiftLeft pos _)
  have fine : Fine (m <<< (e - unit (totalExponent m e)).toNat)
      (e - (e - unit (totalExponent m e)).toNat) := by
    unfold Fine unit totalExponent at *
    omega
  have rounded := rounds_exact sign fine
  rw [value_shiftLeft] at rounded
  exact rounded

/-- A number with its sign is rounded. -/
theorem rounds_normalize (n e : ℤ) (sign : Sign) :
    Rounds ((n * (2 : ℝ) ^ e : ℝ) : EReal) (UnpackedFloat.normalize .binary64 n e sign) := by
  unfold UnpackedFloat.normalize
  rcases lt_trichotomy n 0 with less | rfl | more
  · rw [compare_lt_iff_lt.mpr less]
    have rounded := rounds_round .negative (m := (-n).toNat) (by omega) e
    have same : (((-n).toNat : ℕ) : ℝ) = -n := by exact_mod_cast Int.toNat_of_nonneg (by omega)
    rwa [same, signed, neg_mul, neg_neg] at rounded
  · rw [Int.cast_zero, zero_mul]
    exact rounds_zero sign
  · rw [compare_gt_iff_gt.mpr more]
    have rounded := rounds_round .positive (m := n.toNat) (by omega) e
    have same : ((n.toNat : ℕ) : ℝ) = n := by exact_mod_cast Int.toNat_of_nonneg (by omega)
    rwa [same, signed] at rounded

/-- A mantissa takes its sign along. -/
theorem apply_mul (sign : Sign) (n : ℕ) (t : ℤ) :
    ((sign.apply n : ℤ) : ℝ) * (2 : ℝ) ^ t = signed sign (n * (2 : ℝ) ^ t) := by
  cases sign
  · show ((-(n : ℤ) : ℤ) : ℝ) * (2 : ℝ) ^ t = -(n * (2 : ℝ) ^ t)
    rw [Int.cast_neg, Int.cast_natCast, neg_mul]
  · rfl

/-- The sum of two doubles is the exact one, rounded, unless it is not a number. -/
theorem rounds_add (ha : Valid a) (hb : Valid b) :
    a.add .binary64 b = .notANumber ∨ Rounds (value a + value b) (a.add .binary64 b) := by
  cases ha with
  | undefined => cases hb <;> exact .inl rfl
  | infinity sign =>
    cases hb with
    | undefined => exact .inl rfl
    | infinity sign' =>
      cases sign <;> cases sign'
      · exact .inr (.infinite .negative)
      · exact .inl rfl
      · exact .inl rfl
      · exact .inr (.infinite .positive)
    | zero =>
      right
      rw [value, value, add_zero]
      exact .infinite sign
    | @finite sign' m e pos =>
      right
      cases sign
      · exact (EReal.bot_add (_ : EReal)).symm ▸ .infinite .negative
      · exact (EReal.top_add_coe (_ : ℝ)).symm ▸ .infinite .positive
  | zero sign =>
    cases hb with
    | undefined => exact .inl rfl
    | infinity sign' =>
      right
      rw [value, value, zero_add]
      exact .infinite sign'
    | zero sign' =>
      right
      rw [value, value, add_zero]
      cases sign <;> cases sign' <;> exact rounds_zero _
    | finite sign' pos canonical greatest =>
      right
      rw [value, value, zero_add]
      exact rounds_self (.finite sign' pos canonical greatest) UnpackedFloat.noConfusion
  | @finite sign m e pos canonical greatest =>
    cases hb with
    | undefined => exact .inl rfl
    | infinity sign' =>
      right
      cases sign'
      · exact (EReal.add_bot (_ : EReal)).symm ▸ .infinite .negative
      · exact (EReal.coe_add_top (_ : ℝ)).symm ▸ .infinite .positive
    | zero =>
      right
      rw [value, value, add_zero]
      exact rounds_self (.finite sign pos canonical greatest) UnpackedFloat.noConfusion
    | @finite sign' m' e' pos' =>
      right
      have rounded := rounds_normalize
        (sign.apply (decreaseExponent m e (min e e')).1 +
          sign'.apply (decreaseExponent m' e' (min e e')).1) (min e e') .positive
      rw [Int.cast_add, add_mul, apply_mul, apply_mul, value_decreaseExponent m (min_le_left e e'),
        value_decreaseExponent m' (min_le_right e e'), EReal.coe_add] at rounded
      exact rounded

/-- The sum of two doubles that are not negative is a number. -/
theorem add_ne_undefined (ha : Valid a) (hb : Valid b) (na : a ≠ .notANumber)
    (nb : b ≠ .notANumber) (least : 0 ≤ value a) (least' : 0 ≤ value b) :
    a.add .binary64 b ≠ .notANumber := by
  cases ha with
  | undefined => exact (na rfl).elim
  | infinity sign =>
    cases hb with
    | undefined => exact (nb rfl).elim
    | infinity sign' =>
      -- infinities of opposite signs have none, but one of them would be negative
      cases sign
      · exact (not_le.mpr EReal.bot_lt_zero least).elim
      · cases sign'
        · exact (not_le.mpr EReal.bot_lt_zero least').elim
        · exact UnpackedFloat.noConfusion
    | zero | finite => exact UnpackedFloat.noConfusion
  | zero sign =>
    cases hb with
    | undefined => exact (nb rfl).elim
    | zero sign' => cases sign <;> cases sign' <;> exact UnpackedFloat.noConfusion
    | infinity | finite => exact UnpackedFloat.noConfusion
  | @finite sign m e pos =>
    cases hb with
    | undefined => exact (nb rfl).elim
    | infinity | zero => exact UnpackedFloat.noConfusion
    | @finite sign' m' e' pos' =>
      exact (rounds_normalize
        (sign.apply (decreaseExponent m e (min e e')).1 +
          sign'.apply (decreaseExponent m' e' (min e e')).1) (min e e') .positive).ne_undefined

/-- A difference is the sum with the opposite. -/
theorem sub_eq_add (a b : UnpackedFloat) : a.sub .binary64 b = a.add .binary64 b.neg := by
  cases b with
  | notANumber | infinity | zero => cases a <;> rfl
  | finite sign' m' e' pos' =>
    cases a with
    | notANumber | infinity | zero => rfl
    | finite sign m e pos =>
      have opposite : ∀ n : ℕ, (-sign').apply n = -sign'.apply n := by
        intro n
        cases sign'
        · exact (neg_neg (n : ℤ)).symm
        · rfl
      simp only [UnpackedFloat.sub, UnpackedFloat.add, UnpackedFloat.neg, opposite,
        Int.sub_eq_add_neg]

/-- The opposite of a double is one. -/
theorem Valid.neg (hb : Valid b) : Valid b.neg := by
  cases hb with
  | undefined => exact .undefined
  | infinity sign => exact .infinity (-sign)
  | zero sign => exact .zero (-sign)
  | finite sign pos canonical greatest => exact .finite (-sign) pos canonical greatest

/-- So is its magnitude. -/
theorem Valid.abs (ha : Valid a) : Valid a.abs := by
  cases ha with
  | undefined => exact .undefined
  | infinity sign => exact .infinity .positive
  | zero sign => exact .zero .positive
  | finite sign pos canonical greatest => exact .finite .positive pos canonical greatest

/-- A number and a finite double have a sum. -/
theorem add_finite_ne_undefined (na : a ≠ .notANumber) (finite : b.isFinite = true) :
    a.add .binary64 b ≠ .notANumber := by
  cases b with
  | notANumber | infinity => cases finite
  | zero sign' =>
    cases a with
    | notANumber => exact (na rfl).elim
    | zero sign => cases sign <;> cases sign' <;> exact UnpackedFloat.noConfusion
    | infinity | finite => exact UnpackedFloat.noConfusion
  | finite sign' m' e' pos' =>
    cases a with
    | notANumber => exact (na rfl).elim
    | infinity | zero => exact UnpackedFloat.noConfusion
    | finite sign m e pos =>
      exact (rounds_normalize
        (sign.apply (decreaseExponent m e (min e e')).1 +
          sign'.apply (decreaseExponent m' e' (min e e')).1) (min e e') .positive).ne_undefined

/-- The remainder of a division tells where the quotient lies. -/
theorem represents_fraction (m : ℕ) (pos : 0 < n) :
    Represents (.ofMantissaAndAccuracy (m / n) (accuracyOfFraction (m % n) n)) (m / n : ℝ) := by
  have some : (0 : ℝ) < n := Nat.cast_pos.mpr pos
  have split : (m : ℝ) = n * (m / n : ℕ) + (m % n : ℕ) := by
    exact_mod_cast (Nat.div_add_mod m n).symm
  have less : ((m % n : ℕ) : ℝ) < n := by exact_mod_cast Nat.mod_lt m pos
  unfold accuracyOfFraction
  by_cases none : m % n = 0
  · have even : (m / n : ℝ) = (m / n : ℕ) := by
      rw [none, Nat.cast_zero, add_zero] at split
      rw [div_eq_iff some.ne', split, mul_comm]
    rw [if_pos none, even]
    exact represents_exact _
  · have left : (0 : ℝ) < (m % n : ℕ) := by exact_mod_cast Nat.pos_of_ne_zero none
    rw [if_neg none]
    rcases lt_trichotomy (2 * (m % n)) n with small | half | great
    · rw [compare_lt_iff_lt.mpr small]
      have small : 2 * ((m % n : ℕ) : ℝ) < n := by exact_mod_cast small
      exact represents_lt (by rw [lt_div_iff₀ some]; linarith) (by rw [div_lt_iff₀ some]; linarith)
    · rw [compare_eq_iff_eq.mpr half]
      have half : 2 * ((m % n : ℕ) : ℝ) = n := by exact_mod_cast half
      exact represents_eq (by rw [div_eq_iff some.ne']; linarith)
    · rw [compare_gt_iff_gt.mpr great]
      have great : (n : ℝ) < 2 * ((m % n : ℕ) : ℝ) := by exact_mod_cast great
      exact represents_gt (by rw [lt_div_iff₀ some]; linarith) (by rw [div_lt_iff₀ some]; linarith)

/-- The exponent at which a quotient has enough digits for what it is rounded to. -/
def quotientExponent (m : ℕ) (e : ℤ) (n : ℕ) (e' : ℤ) : ℤ :=
  min (e - e') (unit (totalExponent m e - totalExponent n e'))

/-- A quotient is fine enough. -/
theorem fine_quotient {e' : ℤ} (pos : 0 < m) (pos' : 0 < n) :
    Fine ((m <<< (e - e' - quotientExponent m e n e').toNat) / n) (quotientExponent m e n e') := by
  by_cases least : quotientExponent m e n e' ≤ -1074
  · exact fine_of_least _ least
  · refine fine_of_full ?_ _
    have digits : n.log2 + 53 ≤ m.log2 + (e - e' - quotientExponent m e n e').toNat := by
      unfold quotientExponent unit totalExponent at *
      omega
    rw [Nat.le_div_iff_mul_le pos']
    calc 2 ^ 52 * n ≤ 2 ^ 52 * 2 ^ (n.log2 + 1) := Nat.mul_le_mul_left _ Nat.lt_log2_self.le
      _ = 2 ^ (n.log2 + 53) := by rw [← pow_add]; congr 1; omega
      _ ≤ 2 ^ (m.log2 + (e - e' - quotientExponent m e n e').toNat) :=
        Nat.pow_le_pow_right two_pos digits
      _ ≤ m <<< (e - e' - quotientExponent m e n e').toNat := pow_le_shiftLeft pos _

/-- The quotient of two positive mantissas is rounded. -/
theorem rounds_quotient {e' : ℤ} (sign : Sign) (pos : 0 < m) (pos' : 0 < n) :
    Rounds ((signed sign (m * (2 : ℝ) ^ e / (n * (2 : ℝ) ^ e')) : ℝ) : EReal)
      (roundWithAccuracy .binary64 sign (divCore .binary64 m e n e').1
        (divCore .binary64 m e n e').2.1 (divCore .binary64 m e n e').2.2) := by
  have represented := represents_fraction
    (m <<< (e - e' - quotientExponent m e n e').toNat) pos'
  have least : quotientExponent m e n e' ≤ e - e' := min_le_left _ _
  have scaled : m * (2 : ℝ) ^ e / (n * (2 : ℝ) ^ e') / (2 : ℝ) ^ quotientExponent m e n e' =
      ((m <<< (e - e' - quotientExponent m e n e').toNat : ℕ) : ℝ) / n := by
    have unit : (0 : ℝ) < (2 : ℝ) ^ quotientExponent m e n e' := zpow_pos two_pos _
    have moved : ((m <<< (e - e' - quotientExponent m e n e').toNat : ℕ) : ℝ) *
        (2 : ℝ) ^ quotientExponent m e n e' = m * (2 : ℝ) ^ (e - e') :=
      value_decreaseExponent m least
    rw [div_eq_iff unit.ne', div_mul_eq_mul_div, moved, zpow_sub₀ two_ne_zero]
    field_simp
  rw [← scaled] at represented
  exact rounds_of_represents sign (by positivity) represented (fine_quotient pos pos')

/-- A positive divisor leaves the sign as it is. -/
theorem signed_div_positive (sign : Sign) (x y : ℝ) :
    signed (sign / .positive) (x / y) = signed sign x / y := by
  cases sign
  · exact (neg_div y x).symm
  · rfl

/-- A double with a positive value is infinite or finite, of positive sign. -/
theorem positive_cases (hb : Valid b) (pos : 0 < value b) :
    b = .infinity .positive ∨ ∃ m e some, b = .finite .positive m e some := by
  cases hb with
  | undefined | zero => exact (lt_irrefl _ pos).elim
  | infinity sign =>
    cases sign
    · exact (not_lt_bot pos).elim
    · exact .inl rfl
  | @finite sign m e some =>
    cases sign
    · have negative : -(m * (2 : ℝ) ^ e) < 0 := neg_neg_of_pos (size_pos some e)
      exact (lt_asymm pos (EReal.coe_lt_coe_iff.mpr negative)).elim
    · exact .inr ⟨m, e, some, rfl⟩

/-- The quotient of a double by a positive one is the exact one, rounded, unless
it is not a number. -/
theorem rounds_div (ha : Valid a) (hb : Valid b) (pos : 0 < value b) :
    a.div .binary64 b = .notANumber ∨ Rounds (value a / value b) (a.div .binary64 b) := by
  rcases positive_cases hb pos with rfl | ⟨n, e', some', rfl⟩
  · cases ha with
    | undefined | infinity => exact .inl rfl
    | zero | finite =>
      right
      exact EReal.div_top.symm ▸ rounds_zero _
  · cases ha with
    | undefined => exact .inl rfl
    | infinity sign =>
      right
      cases sign
      · exact (EReal.bot_div_of_pos_ne_top pos (EReal.coe_ne_top _)).symm ▸ .infinite .negative
      · exact (EReal.top_div_of_pos_ne_top pos (EReal.coe_ne_top _)).symm ▸ .infinite .positive
    | zero =>
      right
      exact EReal.zero_div.symm ▸ rounds_zero _
    | @finite sign m e some =>
      right
      have rounded := @rounds_quotient m n e e' (sign / .positive) some some'
      rw [signed_div_positive, EReal.coe_div] at rounded
      exact rounded

/-- The root of a value, or nought if it is negative. -/
noncomputable def root (v : EReal) : EReal := if v = ⊤ then ⊤ else (√v.toReal : ℝ)

/-- A greater value has no smaller root. -/
theorem root_mono {v w : EReal} (h : v ≤ w) : root v ≤ root w := by
  unfold root
  by_cases top : w = ⊤
  · rw [if_pos top]
    exact le_top
  · have top' : v ≠ ⊤ := fun infinite => top (top_le_iff.mp (infinite ▸ h))
    rw [if_neg top, if_neg top', EReal.coe_le_coe_iff]
    by_cases bot : v = ⊥
    · rw [bot, EReal.toReal_bot, Real.sqrt_zero]
      exact Real.sqrt_nonneg _
    · exact Real.sqrt_le_sqrt (EReal.toReal_le_toReal h bot top)

/-- No root is negative. -/
theorem root_nonneg (v : EReal) : 0 ≤ root v := by
  unfold root
  split
  · exact le_top
  · exact EReal.coe_nonneg.mpr (Real.sqrt_nonneg _)

/-- The root of what is not positive is nought. -/
theorem root_of_nonpos {v : EReal} (h : v ≤ 0) : root v = 0 := by
  have finite : v ≠ ⊤ := ne_top_of_le_ne_top EReal.zero_ne_top h
  rw [root, if_neg finite, Real.sqrt_eq_zero_of_nonpos (EReal.toReal_nonpos h), EReal.coe_zero]

/-- What is above a square tells where the root lies. It is never half the way. -/
theorem represents_root (m : ℕ) :
    Represents (.ofMantissaAndAccuracy m.sqrt
      (if m - m.sqrt * m.sqrt = 0 then .exact
        else .inexact (if m - m.sqrt * m.sqrt ≤ m.sqrt then .lt else .gt))) (√m) := by
  have low : m.sqrt * m.sqrt ≤ m := Nat.sqrt_le m
  have high : m < (m.sqrt + 1) * (m.sqrt + 1) := Nat.lt_succ_sqrt m
  generalize m.sqrt = r at low high ⊢
  have nonneg : (0 : ℝ) ≤ r := Nat.cast_nonneg r
  by_cases none : m - r * r = 0
  · have square : m = r * r := by omega
    have even : √(m : ℝ) = r := by rw [square, Nat.cast_mul, Real.sqrt_mul_self nonneg]
    rw [if_pos none, even]
    exact represents_exact r
  · have above : ((r * r : ℕ) : ℝ) < m := by exact_mod_cast (by omega : r * r < m)
    rw [if_neg none]
    push_cast at above
    by_cases small : m - r * r ≤ r
    · have below : (m : ℝ) ≤ ((r * r + r : ℕ) : ℝ) := by exact_mod_cast (by omega : m ≤ r * r + r)
      rw [if_pos small]
      push_cast at below
      refine represents_lt ?_ ?_
      · rw [Real.lt_sqrt nonneg]
        linarith
      · rw [Real.sqrt_lt' (by linarith)]
        linarith
    · have beyond : ((r * r + r + 1 : ℕ) : ℝ) ≤ m := by
        exact_mod_cast (by omega : r * r + r + 1 ≤ m)
      have high : (m : ℝ) < ((r + 1) * (r + 1) : ℕ) := by exact_mod_cast high
      rw [if_neg small]
      push_cast at beyond high
      refine represents_gt ?_ ?_
      · rw [Real.lt_sqrt (by linarith)]
        linarith
      · rw [Real.sqrt_lt' (by linarith)]
        linarith

/-- The exponent at which a root has enough digits for what it is rounded to. -/
def rootExponent (m : ℕ) (e : ℤ) : ℤ := min (e / 2) (unit ((totalExponent m e + 1) / 2))

/-- A root is fine enough. -/
theorem fine_root (pos : 0 < m) :
    Fine (m <<< (e - 2 * rootExponent m e).toNat).sqrt (rootExponent m e) := by
  by_cases least : rootExponent m e ≤ -1074
  · exact fine_of_least _ least
  · refine fine_of_full ?_ _
    have digits : 104 ≤ m.log2 + (e - 2 * rootExponent m e).toNat := by
      unfold rootExponent unit totalExponent at *
      omega
    rw [Nat.le_sqrt, ← pow_add]
    calc 2 ^ (52 + 52) ≤ 2 ^ (m.log2 + (e - 2 * rootExponent m e).toNat) :=
          Nat.pow_le_pow_right two_pos digits
      _ ≤ m <<< (e - 2 * rootExponent m e).toNat := pow_le_shiftLeft pos _

/-- The root of a positive mantissa is rounded. -/
theorem rounds_root (pos : 0 < m) :
    Rounds ((√(m * (2 : ℝ) ^ e) : ℝ) : EReal)
      (roundWithAccuracy .binary64 .positive (sqrtCore .binary64 m e).1
        (sqrtCore .binary64 m e).2.1 (sqrtCore .binary64 m e).2.2) := by
  have represented := represents_root (m <<< (e - 2 * rootExponent m e).toNat)
  have scaled : √(m * (2 : ℝ) ^ e) / (2 : ℝ) ^ rootExponent m e =
      √((m <<< (e - 2 * rootExponent m e).toNat : ℕ) : ℝ) := by
    have unit : (0 : ℝ) < (2 : ℝ) ^ rootExponent m e := zpow_pos two_pos _
    have least : 2 * rootExponent m e ≤ e := by
      unfold rootExponent
      omega
    have moved : ((m <<< (e - 2 * rootExponent m e).toNat : ℕ) : ℝ) *
        (2 : ℝ) ^ (2 * rootExponent m e) = m * (2 : ℝ) ^ e :=
      value_decreaseExponent m least
    have twice : (2 : ℝ) ^ (2 * rootExponent m e) =
        (2 : ℝ) ^ rootExponent m e * (2 : ℝ) ^ rootExponent m e := by
      rw [two_mul, zpow_add₀ two_ne_zero]
    rw [← moved, twice, Real.sqrt_mul (Nat.cast_nonneg _), Real.sqrt_mul_self unit.le,
      mul_div_cancel_right₀ _ unit.ne']
  rw [← scaled] at represented
  exact rounds_of_represents .positive (Real.sqrt_nonneg _) represented (fine_root pos)

/-- The root of a double is the exact one, rounded, unless it is not a number. -/
theorem rounds_sqrt (ha : Valid a) :
    a.sqrt .binary64 = .notANumber ∨ Rounds (root (value a)) (a.sqrt .binary64) := by
  cases ha with
  | undefined => exact .inl rfl
  | infinity sign =>
    cases sign
    · exact .inl rfl
    · right
      have infinite : root (value (.infinity .positive)) = ⊤ := if_pos rfl
      exact infinite ▸ .infinite .positive
  | zero sign =>
    right
    have nought : root (value (.zero sign)) = 0 := by simp [root, value]
    exact nought ▸ rounds_zero sign
  | @finite sign m e pos =>
    cases sign
    · exact .inl rfl
    · right
      have finite : root (value (.finite .positive m e pos)) = ((√(m * (2 : ℝ) ^ e) : ℝ) : EReal) :=
        if_neg (EReal.coe_ne_top _)
      exact finite ▸ rounds_root pos

/-- The double of a decimal, without the short cut for a small one, if the power of
ten is not so great or small that none is formed. -/
theorem rounds_ofScientific (pos : 0 < n) (least : -(2 ^ 11 + n.log2 : ℤ) ≤ e) (most : e ≤ 2 ^ 11) :
    Rounds ((n * (10 : ℝ) ^ e : ℝ) : EReal) (UnpackedFloat.ofScientific .binary64 n e) := by
  rw [UnpackedFloat.ofScientific, dif_neg pos.ne', if_neg most.not_gt, if_neg least.not_gt]
  split
  · next nonneg =>
    obtain ⟨k, rfl⟩ := Int.eq_ofNat_of_zero_le nonneg
    have full : 2 ^ 52 ≤ (n <<< 53) * 10 ^ k := by
      have shifted : 2 ^ 52 ≤ n <<< 53 := by
        rw [Nat.shiftLeft_eq]
        omega
      exact shifted.trans (Nat.le_mul_of_pos_right _ (by positivity))
    have same : (((n <<< 53) * 10 ^ k : ℕ) : ℝ) * (2 : ℝ) ^ (-53 : ℤ) = n * (10 : ℝ) ^ (k : ℤ) := by
      have shifted := value_shiftLeft n 53 0
      rw [zpow_zero, mul_one, zero_sub, Nat.cast_ofNat] at shifted
      rw [Nat.cast_mul, mul_right_comm, shifted, Nat.cast_pow, Nat.cast_ofNat, zpow_natCast]
    have rounded := rounds_exact .positive (fine_of_full full (-53))
    rw [same] at rounded
    exact rounded
  · next negative =>
    obtain ⟨k, rfl⟩ := Int.eq_negSucc_of_lt_zero (not_le.mp negative)
    have same : (n * (2 : ℝ) ^ (0 : ℤ) / ((10 ^ (k + 1) : ℕ) * (2 : ℝ) ^ (0 : ℤ))) =
        n * (10 : ℝ) ^ Int.negSucc k := by
      rw [zpow_zero, mul_one, mul_one, zpow_negSucc, Nat.cast_pow, Nat.cast_ofNat, div_eq_mul_inv]
    have rounded := @rounds_quotient n (10 ^ (k + 1)) 0 0 .positive pos (by positivity)
    rw [same] at rounded
    exact rounded

end HorizonUct.Binary64
