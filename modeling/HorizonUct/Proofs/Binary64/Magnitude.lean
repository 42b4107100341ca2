import HorizonUct.Proofs.Binary64.Monotone

/-!
# Doubles that nought makes vanish

Nought times a double is nought, unless that is infinite or no number. Counts of
64 bits are neither, and neither are roots, nor quotients by a count, of doubles
that are not negative and are neither themselves. Nought in turn leaves any double
as it is that it is added to, an infinite one too, but for the sign of another
nought, which no comparison sees.
-/

namespace HorizonUct.Binary64

open Float.Model (UnpackedFloat)
open Float.Model.UnpackedFloat (Sign)

/-- A number that is not negative, and not infinite, is zero or finite of positive sign. -/
theorem zero_or_finite {a : UnpackedFloat} (ha : Valid a) (na : a ≠ .notANumber)
    (least : 0 ≤ value a) (bounded : value a ≠ ⊤) :
    (∃ sign, a = .zero sign) ∨ ∃ m e pos, a = .finite .positive m e pos := by
  rcases least.eq_or_lt with none | some
  · left
    cases ha with
    | undefined => exact (na rfl).elim
    | infinity sign => cases sign <;> cases none
    | zero sign => exact ⟨sign, rfl⟩
    | @finite sign m e pos =>
      have size := size_pos pos e
      have none : 0 = signed sign (m * (2 : ℝ) ^ e) := EReal.coe_injective none
      cases sign <;> dsimp only [signed] at none <;> linarith
  · right
    exact (positive_cases ha some).resolve_left fun infinite => bounded (by rw [infinite]; rfl)

/-- A double that is a number, not negative, and not infinite. -/
structure Magnitude (x : Float) : Prop where
  /-- It is a number. -/
  number : ¬ Undefined x
  /-- It is not negative. -/
  nonneg : 0 ≤ valueOf x
  /-- It is not infinite. -/
  bounded : valueOf x ≠ ⊤

variable {x y : Float} {v : EReal} {n : ℕ}

/-- Such a double is zero or finite of positive sign. -/
theorem Magnitude.cases (hx : Magnitude x) : (∃ sign, x.toModel.unpack = .zero sign) ∨
    ∃ m e pos, x.toModel.unpack = .finite .positive m e pos :=
  zero_or_finite (valid_unpack x.toModel) hx.number hx.nonneg hx.bounded

/-- It is one that is at least nought and finite. -/
theorem magnitude_iff : Magnitude x ↔ 0 ≤ x ∧ x.isFinite = true := by
  have finite : x.isFinite = x.toModel.unpack.isFinite := rfl
  rw [le_iff, valueOf_zero, finite]
  constructor
  · intro hx
    refine ⟨⟨defined_zero, hx.number, hx.nonneg⟩, ?_⟩
    rcases hx.cases with ⟨sign, zero⟩ | ⟨m, e, pos, some⟩
    · rw [zero]
      rfl
    · rw [some]
      rfl
  · rintro ⟨⟨-, number, nonneg⟩, finite⟩
    refine ⟨number, nonneg, ?_⟩
    rw [valueOf]
    cases unpacked : x.toModel.unpack with
    | notANumber => exact (number unpacked).elim
    | infinity => rw [unpacked] at finite; cases finite
    | zero => exact EReal.zero_ne_top
    | finite => exact EReal.coe_ne_top _

/-- A number that is near to a value between nought and another magnitude is one. -/
theorem Magnitude.of_near (hy : Magnitude y) (near : Near v x.toModel) (number : ¬ Undefined x)
    (least : 0 ≤ v) (most : v ≤ valueOf y) : Magnitude x := by
  have nought : Near 0 (0 : Float).toModel := valueOf_zero ▸ near_self _
  have above : 0 ≤ valueOf x := valueOf_zero ▸ near.le nought number defined_zero least
  have below : valueOf x ≤ valueOf y := (near_self y.toModel).le near hy.number number most
  exact ⟨number, above, ne_top_of_le_ne_top hy.bounded below⟩

/-- The double of a count is at least one. -/
theorem one_le_ofNat (pos : 0 < n) : 1 ≤ Float.ofNat n :=
  le_iff.mpr ⟨defined_ofNat Nat.one_pos, defined_ofNat pos, valueOf_ofNat_mono Nat.one_pos pos⟩

/-- The double of a count of 64 bits is a magnitude. -/
theorem magnitude_ofNat (pos : 0 < n) (small : n < 2 ^ 64) : Magnitude (Float.ofNat n) := by
  have unpacked : (Float.ofBits 0x43F0000000000000).toModel.unpack =
      .finite .positive (2 ^ 52) 12 (by norm_num) := rfl
  have limit : valueOf (Float.ofBits 0x43F0000000000000) = ((2 ^ 64 : ℝ) : EReal) := by
    rw [valueOf, unpacked]
    norm_num [value, signed]
  have wide : Magnitude (Float.ofBits 0x43F0000000000000) := by
    refine ⟨?_, ?_, ?_⟩
    · rw [Undefined, unpacked]
      exact UnpackedFloat.noConfusion
    · rw [limit]
      exact EReal.coe_nonneg.mpr (by norm_num)
    · rw [limit]
      exact EReal.coe_ne_top _
  refine wide.of_near (near_ofNat pos) (defined_ofNat pos)
    (EReal.coe_nonneg.mpr (Nat.cast_nonneg n)) ?_
  rw [limit, EReal.coe_le_coe_iff]
  exact_mod_cast small.le

/-- A magnitude over a count is one. -/
theorem Magnitude.div_ofNat (hx : Magnitude x) (pos : 0 < n) : Magnitude (x / Float.ofNat n) := by
  have pos' := valueOf_ofNat_pos pos
  have valid := valid_unpack x.toModel
  have valid' := valid_unpack (Float.ofNat n).toModel
  have number : x.toModel.unpack.div .binary64 (Float.ofNat n).toModel.unpack ≠ .notANumber := by
    rcases positive_cases valid' pos' with infinite | ⟨m, e, some, finite⟩
    · rw [infinite]
      rcases hx.cases with ⟨sign, unpacked⟩ | ⟨m, e, some, unpacked⟩ <;> rw [unpacked] <;>
        exact UnpackedFloat.noConfusion
    · rw [finite]
      rcases hx.cases with ⟨sign, unpacked⟩ | ⟨m', e', some', unpacked⟩ <;> rw [unpacked]
      · exact UnpackedFloat.noConfusion
      · exact (rounds_quotient _ some' some).ne_undefined
  refine hx.of_near (near_div x pos') (number_pack (rounds_div valid valid' pos') number)
    (EReal.div_nonneg hx.nonneg pos'.le) ?_
  -- the count is at least one
  have inverse := EReal.inv_strictAntiOn.antitoneOn (valueOf_ofNat_pos Nat.one_pos) pos'
    (valueOf_ofNat_mono Nat.one_pos pos)
  calc valueOf x / valueOf (Float.ofNat n) ≤ valueOf x / valueOf (Float.ofNat 1) :=
        mul_le_mul_of_nonneg_left inverse hx.nonneg
    _ = valueOf x := by rw [valueOf_one, div_eq_mul_inv, inv_one, mul_one]

/-- A root is not greater than one, or not greater than what it is taken of. -/
theorem root_le {v : EReal} (least : 0 ≤ v) (bounded : v ≠ ⊤) : root v ≤ 1 ∨ root v ≤ v := by
  lift v to ℝ using ⟨bounded, ne_bot_of_le_ne_bot EReal.zero_ne_bot least⟩
  rw [root, if_neg bounded, EReal.toReal_coe, ← EReal.coe_one, EReal.coe_le_coe_iff,
    EReal.coe_le_coe_iff]
  refine (le_total v 1).imp Real.sqrt_le_one.mpr fun great => ?_
  exact Real.sqrt_le_iff.mpr ⟨zero_le_one.trans great, le_self_pow₀ great two_ne_zero⟩

/-- The root of a magnitude is one. -/
theorem Magnitude.sqrt (hx : Magnitude x) : Magnitude x.sqrt := by
  have valid := valid_unpack x.toModel
  have number : x.toModel.unpack.sqrt .binary64 ≠ .notANumber := by
    rcases hx.cases with ⟨sign, unpacked⟩ | ⟨m, e, some, unpacked⟩ <;> rw [unpacked]
    · exact UnpackedFloat.noConfusion
    · exact (rounds_root some).ne_undefined
  have number : ¬ Undefined x.sqrt := number_pack (rounds_sqrt valid) number
  rcases root_le hx.nonneg hx.bounded with most | most
  · rw [← valueOf_one] at most
    exact (magnitude_ofNat Nat.one_pos (by norm_num)).of_near (near_sqrt x) number
      (root_nonneg _) most
  · exact hx.of_near (near_sqrt x) number (root_nonneg _) most

/-- Nought times a magnitude is nought. -/
theorem Magnitude.zero_mul (hx : Magnitude x) : ∃ sign, (0 * x).toModel.unpack = .zero sign := by
  have product : (0 * x).toModel.unpack =
      (Float.Model.pack (.mul .binary64 (.zero .positive) x.toModel.unpack)).unpack := rfl
  rw [product]
  rcases hx.cases with ⟨sign, zero⟩ | ⟨m, e, some, finite⟩
  · rw [zero]
    exact ⟨_, unpack_pack_of_valid (.zero _) UnpackedFloat.noConfusion⟩
  · rw [finite]
    exact ⟨_, unpack_pack_of_valid (.zero _) UnpackedFloat.noConfusion⟩

/-- What is added to nought is a number with the value that it had. -/
theorem valueOf_add_of_zero {sign : Sign} (zero : x.toModel.unpack = .zero sign)
    (number : ¬ Undefined y) : ¬ Undefined (x + y) ∧ valueOf (x + y) = valueOf y := by
  have sum : (x + y).toModel.unpack =
      (Float.Model.pack (.add .binary64 (.zero sign) y.toModel.unpack)).unpack := by
    rw [← zero]
    rfl
  have valid := valid_unpack y.toModel
  rw [Undefined] at number
  rw [Undefined, valueOf, valueOf, sum]
  generalize y.toModel.unpack = u at valid number ⊢
  -- but for another nought the sum is the summand itself
  have itself : (UnpackedFloat.add .binary64 (.zero sign) u = u) ∨
      ∃ sign', u = .zero sign' ∧
        ∃ sign'', UnpackedFloat.add .binary64 (.zero sign) u = .zero sign'' := by
    cases u with
    | notANumber => exact (number rfl).elim
    | infinity | finite => exact .inl rfl
    | zero sign' => exact .inr ⟨sign', rfl, by cases sign <;> cases sign' <;> exact ⟨_, rfl⟩⟩
  rcases itself with same | ⟨sign', rfl, sign'', same⟩
  · rw [same, unpack_pack_of_valid valid number]
    exact ⟨number, rfl⟩
  · rw [same, unpack_pack_of_valid (.zero sign'') UnpackedFloat.noConfusion]
    exact ⟨UnpackedFloat.noConfusion, rfl⟩

end HorizonUct.Binary64
