import HorizonUct.Proofs.Binary64.Scientific

/-!
# Operations keep the order

Since exact results are in order, and rounding keeps the order, no operation
turns one around: neither the root nor the sum, nor the product with a factor
that is not negative. Dividing by a greater count does not give more. All this
is said of what is not less, which a comparison with what is not a number
never is. Doubles that are not negative always have a sum, so of them more can
be said: none of them makes it less than the others do.
-/

namespace HorizonUct.Binary64

open Float.Model (UnpackedFloat)

variable {x y a b : Float} {m n : ℕ}

/-- A double that is not a number. -/
def Undefined (x : Float) : Prop := x.toModel.unpack = .notANumber

/-- The value of a double. -/
noncomputable def valueOf (x : Float) : EReal := value x.toModel.unpack

/-- A double is less than another one if both are numbers and its value is less. -/
theorem lt_iff : x < y ↔ ¬ Undefined x ∧ ¬ Undefined y ∧ valueOf x < valueOf y :=
  decide_eq_true_iff.trans
    (lt_iff_value (valid_unpack x.toModel) (valid_unpack y.toModel))

/-- A double is at most another one if both are numbers and its value is. -/
theorem le_iff : x ≤ y ↔ ¬ Undefined x ∧ ¬ Undefined y ∧ valueOf x ≤ valueOf y := by
  have compared : x ≤ y ↔ x.toModel.unpack.le y.toModel.unpack = true := decide_eq_true_iff
  have less := lt_iff_value (valid_unpack y.toModel) (valid_unpack x.toModel)
  constructor
  · intro h
    obtain ⟨nx, ny⟩ := Scalar.numbers_of_le (compared.mp h)
    rw [compared, Scalar.le_iff_rank nx ny, ← not_lt, ← Scalar.lt_iff_rank ny nx] at h
    exact ⟨nx, ny, not_lt.mp fun more => h (less.mpr ⟨ny, nx, more⟩)⟩
  · rintro ⟨nx, ny, h⟩
    rw [compared, Scalar.le_iff_rank nx ny, ← not_lt, ← Scalar.lt_iff_rank ny nx]
    exact fun more => not_lt.mpr h (less.mp more).2.2

/-- Of two numbers the one that is not less has no smaller value. -/
theorem valueOf_le (hx : ¬ Undefined x) (hy : ¬ Undefined y) (h : ¬ x < y) :
    valueOf y ≤ valueOf x :=
  not_lt.mp fun less => h (lt_iff.mpr ⟨hx, hy, less⟩)

/-- What is near to a greater value is not less. -/
theorem not_lt_of_near {v w : EReal} (hx : Near v x.toModel) (hy : Near w y.toModel)
    (h : w ≤ v) : ¬ x < y := by
  intro less
  obtain ⟨nx, ny, less⟩ := lt_iff.mp less
  exact (hx.le hy nx ny h).not_gt less

/-- Nought has the value nought. -/
theorem valueOf_zero : valueOf 0 = 0 := by
  have unpacked : (0 : Float).toModel.unpack = .zero .positive := rfl
  rw [valueOf, unpacked, value]

/-- Nought is a number. -/
theorem defined_zero : ¬ Undefined 0 := by
  have unpacked : (0 : Float).toModel.unpack = .zero .positive := rfl
  rw [Undefined, unpacked]
  exact UnpackedFloat.noConfusion

/-- The root of a double is near to the exact one. -/
theorem near_sqrt (x : Float) : Near (root (valueOf x)) x.sqrt.toModel :=
  near_pack (rounds_sqrt (valid_unpack x.toModel))

/-- The sum of two doubles is near to the exact one. -/
theorem near_add (x y : Float) : Near (valueOf x + valueOf y) (x + y).toModel :=
  near_pack (rounds_add (valid_unpack x.toModel) (valid_unpack y.toModel))

/-- The product of two doubles is near to the exact one. -/
theorem near_mul (x y : Float) : Near (valueOf x * valueOf y) (x * y).toModel :=
  near_pack (rounds_mul (valid_unpack x.toModel) (valid_unpack y.toModel))

/-- The quotient of a double by a positive one is near to the exact one. -/
theorem near_div (x : Float) (pos : 0 < valueOf y) :
    Near (valueOf x / valueOf y) (x / y).toModel :=
  near_pack (rounds_div (valid_unpack x.toModel) (valid_unpack y.toModel) pos)

/-- Only a number has a root. -/
theorem defined_of_sqrt (h : ¬ Undefined x.sqrt) : ¬ Undefined x := by
  contrapose! h
  show (Float.Model.pack (.sqrt .binary64 x.toModel.unpack)).unpack = _
  rw [h]
  rfl

/-- An operation that gives a number only of numbers. -/
theorem defined_of_operation {op : UnpackedFloat → UnpackedFloat → UnpackedFloat}
    (first : ∀ v, op .notANumber v = .notANumber) (second : ∀ u, op u .notANumber = .notANumber)
    (h : (Float.Model.pack (op x.toModel.unpack y.toModel.unpack)).unpack ≠ .notANumber) :
    ¬ Undefined x ∧ ¬ Undefined y := by
  constructor
  · intro undefined
    rw [show x.toModel.unpack = .notANumber from undefined, first] at h
    exact h rfl
  · intro undefined
    rw [show y.toModel.unpack = .notANumber from undefined, second] at h
    exact h rfl

/-- Only numbers have a sum. -/
theorem defined_of_add (h : ¬ Undefined (x + y)) : ¬ Undefined x ∧ ¬ Undefined y :=
  defined_of_operation (fun v => by cases v <;> rfl) (fun u => by cases u <;> rfl) h

/-- Only numbers have a product. -/
theorem defined_of_mul (h : ¬ Undefined (x * y)) : ¬ Undefined x ∧ ¬ Undefined y :=
  defined_of_operation undefined_mul (fun u => by cases u <;> rfl) h

/-- Only numbers have a quotient. -/
theorem defined_of_div (h : ¬ Undefined (x / y)) : ¬ Undefined x ∧ ¬ Undefined y :=
  defined_of_operation (fun v => by cases v <;> rfl) (fun u => by cases u <;> rfl) h

/-- Only numbers have a difference. -/
theorem defined_of_sub (h : ¬ Undefined (x - y)) : ¬ Undefined x ∧ ¬ Undefined y :=
  defined_of_operation (fun v => by cases v <;> rfl) (fun u => by cases u <;> rfl) h

/-- A number differs from a finite double by a number. -/
theorem defined_sub_finite (hx : ¬ Undefined x) (finite : y.toModel.unpack.isFinite = true) :
    ¬ Undefined (x - y) := by
  have valid := valid_unpack x.toModel
  have finite' : y.toModel.unpack.neg.isFinite = true := by
    rw [← finite]
    cases y.toModel.unpack <;> rfl
  show (Float.Model.pack (.sub .binary64 x.toModel.unpack y.toModel.unpack)).unpack ≠ _
  rw [sub_eq_add]
  exact number_pack (rounds_add valid (valid_unpack y.toModel).neg)
    (add_finite_ne_undefined hx finite')

/-- The magnitude of a double is a number exactly if the double is one. -/
theorem undefined_abs : Undefined x.abs ↔ Undefined x := by
  have valid := (valid_unpack x.toModel).abs
  show (Float.Model.pack x.toModel.unpack.abs).unpack = _ ↔ x.toModel.unpack = _
  have same : x.toModel.unpack.abs = .notANumber ↔ x.toModel.unpack = .notANumber := by
    cases x.toModel.unpack with
    | notANumber => exact Iff.rfl
    | infinity | zero | finite =>
      exact iff_of_false UnpackedFloat.noConfusion UnpackedFloat.noConfusion
  by_cases number : x.toModel.unpack.abs = .notANumber
  · rw [number, ← same]
    exact iff_of_true rfl number
  · rw [unpack_pack_of_valid valid number, same]

/-- The root of what is not less is not less. -/
theorem not_sqrt_lt (h : ¬ x < y) : ¬ x.sqrt < y.sqrt := by
  intro less
  obtain ⟨nx, ny, -⟩ := lt_iff.mp less
  have values := valueOf_le (defined_of_sqrt nx) (defined_of_sqrt ny) h
  exact not_lt_of_near (near_sqrt x) (near_sqrt y) (root_mono values) less

/-- A double that is not positive has no positive root. -/
theorem not_sqrt_lt_of_not_pos (h : ¬ 0 < y) : ¬ x.sqrt < y.sqrt := by
  intro less
  obtain ⟨-, ny, -⟩ := lt_iff.mp less
  have nonpos := valueOf_le defined_zero (defined_of_sqrt ny) h
  rw [valueOf_zero] at nonpos
  have none : root (valueOf y) ≤ root (valueOf x) := root_of_nonpos nonpos ▸ root_nonneg _
  exact not_lt_of_near (near_sqrt x) (near_sqrt y) none less

/-- What is not less is not less with a summand that is not less. -/
theorem not_add_lt (h : ¬ x < y) (h' : ¬ a < b) : ¬ x + a < y + b := by
  intro less
  obtain ⟨nx, ny, -⟩ := lt_iff.mp less
  have first := valueOf_le (defined_of_add nx).1 (defined_of_add ny).1 h
  have second := valueOf_le (defined_of_add nx).2 (defined_of_add ny).2 h'
  exact not_lt_of_near (near_add x a) (near_add y b) (add_le_add first second) less

/-- What is not less is not less after it is multiplied by a factor that is not negative. -/
theorem not_mul_lt (nonneg : ¬ a < 0) (h : ¬ x < y) : ¬ a * x < a * y := by
  intro less
  obtain ⟨nx, ny, -⟩ := lt_iff.mp less
  have factor := valueOf_le (defined_of_mul nx).1 defined_zero nonneg
  have values := valueOf_le (defined_of_mul nx).2 (defined_of_mul ny).2 h
  rw [valueOf_zero] at factor
  exact not_lt_of_near (near_mul a x) (near_mul a y)
    (mul_le_mul_of_nonneg_left values factor) less

/-- The double of a count is a number. -/
theorem defined_ofNat (pos : 0 < n) : ¬ Undefined (Float.ofNat n) := by
  obtain ⟨u, rounded, same⟩ := unpack_ofNat pos
  rw [Undefined, same]
  exact rounded.number

/-- A greater count has no smaller double. -/
theorem valueOf_ofNat_mono {m : ℕ} (pos : 0 < m) (h : m ≤ n) :
    valueOf (Float.ofNat m) ≤ valueOf (Float.ofNat n) :=
  (near_ofNat (pos.trans_le h)).le (near_ofNat pos) (defined_ofNat (pos.trans_le h))
    (defined_ofNat pos) (EReal.coe_le_coe_iff.mpr (Nat.cast_le.mpr h))

/-- One has the value one. -/
theorem valueOf_one : valueOf (Float.ofNat 1) = 1 := by
  have unpacked : (Float.ofNat 1).toModel.unpack =
      .finite .positive (2 ^ 52) (-52) (by norm_num) := rfl
  rw [valueOf, unpacked]
  norm_num [value, signed]

/-- The double of a count is positive. -/
theorem valueOf_ofNat_pos (pos : 0 < n) : 0 < valueOf (Float.ofNat n) :=
  zero_lt_one.trans_le (valueOf_one ▸ valueOf_ofNat_mono Nat.one_pos pos)

/-- Doubles that are not negative have a sum. -/
theorem defined_add (hx : 0 ≤ x) (hy : 0 ≤ y) : ¬ Undefined (x + y) := by
  obtain ⟨-, nx, least⟩ := le_iff.mp hx
  obtain ⟨-, ny, least'⟩ := le_iff.mp hy
  rw [valueOf_zero] at least least'
  have valid := valid_unpack x.toModel
  have valid' := valid_unpack y.toModel
  exact number_pack (rounds_add valid valid') (add_ne_undefined valid valid' nx ny least least')

/-- What is added to a double that is not negative, and is itself not negative,
does not make it less. -/
theorem le_add_of_nonneg (hx : 0 ≤ x) (hy : 0 ≤ y) : x ≤ x + y := by
  obtain ⟨-, nx, -⟩ := le_iff.mp hx
  obtain ⟨-, -, least⟩ := le_iff.mp hy
  rw [valueOf_zero] at least
  refine le_iff.mpr ⟨nx, defined_add hx hy, ?_⟩
  exact (near_add x y).le (near_self x.toModel) (defined_add hx hy) nx
    (le_add_of_nonneg_right least)

/-- If besides it is at most nought, it does not make it more either. -/
theorem add_le_of_not_pos (hx : 0 ≤ x) (hy : 0 ≤ y) (none : y ≤ 0) : x + y ≤ x := by
  obtain ⟨-, nx, -⟩ := le_iff.mp hx
  obtain ⟨-, -, most⟩ := le_iff.mp none
  rw [valueOf_zero] at most
  refine le_iff.mpr ⟨defined_add hx hy, nx, ?_⟩
  exact (near_self x.toModel).le (near_add x y) nx (defined_add hx hy)
    (add_le_of_nonpos_right most)

/-- What is not negative does not become less when it is divided by a smaller count. -/
theorem not_div_lt (nonneg : ¬ x < 0) (pos : 0 < m) (h : m ≤ n) :
    ¬ x / Float.ofNat m < x / Float.ofNat n := by
  intro less
  obtain ⟨nx, ny, -⟩ := lt_iff.mp less
  have dividend := valueOf_le (defined_of_div nx).1 defined_zero nonneg
  rw [valueOf_zero] at dividend
  have pos' := valueOf_ofNat_pos pos
  have pos'' := valueOf_ofNat_pos (pos.trans_le h)
  have inverses := EReal.inv_strictAntiOn.antitoneOn pos' pos'' (valueOf_ofNat_mono pos h)
  have quotients : valueOf x / valueOf (Float.ofNat n) ≤ valueOf x / valueOf (Float.ofNat m) :=
    mul_le_mul_of_nonneg_left inverses dividend
  exact not_lt_of_near (near_div x pos') (near_div x pos'') quotients less

/-- What is negative does not become positive when it is divided by a count. -/
theorem not_div_pos (neg : x < 0) (pos : 0 < n) : ¬ 0 < x / Float.ofNat n := by
  intro more
  obtain ⟨-, number, -⟩ := lt_iff.mp more
  obtain ⟨-, -, less⟩ := lt_iff.mp neg
  rw [valueOf_zero] at less
  have pos' := valueOf_ofNat_pos pos
  have quotient := EReal.div_nonpos_of_nonpos_of_nonneg less.le pos'.le
  have nought : Near 0 (0 : Float).toModel := valueOf_zero ▸ near_self _
  exact not_lt_of_near nought (near_div x pos') quotient more

end HorizonUct.Binary64
