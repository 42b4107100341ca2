import HorizonUct.Proofs.Binary64.Magnitude
import HorizonUct.Proofs.Decimal.Bits
import HorizonUct.Proofs.Mean

/-!
# Results that are not rounded

An operation on doubles whose exact result is itself a double comes to that
double. So a mean into which the same return is folded again and again stays
that return if no multiple of it on the way has to be rounded. The difference
between the two noughts is kept in mind: a sum with the positive one is never
the negative one.
-/

namespace HorizonUct.Binary64

open Float.Model (UnpackedFloat)
open Float.Model.UnpackedFloat (Sign)

/-- A double that is a given real, neither rounded nor infinite. -/
structure Exactly (x : Float) (r : ℝ) : Prop where
  /-- It is a number. -/
  number : ¬ Undefined x
  /-- Its value is the real. -/
  value : valueOf x = (r : EReal)

variable {x y z : Float} {r s : ℝ} {n : ℕ}

/-- A number that is near to a real which is a double is that real. -/
theorem Exactly.of_near (hz : Exactly z r) (near : Near (r : EReal) x.toModel)
    (number : ¬ Undefined x) : Exactly x r := by
  rw [← hz.value] at near
  have below := (near_self z.toModel).le near hz.number number le_rfl
  have above := near.le (near_self z.toModel) number hz.number le_rfl
  exact ⟨number, (le_antisymm below above).trans hz.value⟩

/-- A double that is a real is zero or finite. -/
theorem Exactly.cases (hx : Exactly x r) : (∃ sign, x.toModel.unpack = .zero sign ∧ r = 0) ∨
    ∃ sign m e pos, x.toModel.unpack = .finite sign m e pos ∧
      r = signed sign (m * (2 : ℝ) ^ e) := by
  have number := hx.number
  have same := hx.value
  rw [Undefined] at number
  rw [valueOf] at same
  cases unpacked : x.toModel.unpack with
  | notANumber => exact (number unpacked).elim
  | infinity sign =>
    rw [unpacked] at same
    cases sign
    · exact absurd same.symm (EReal.coe_ne_bot r)
    · exact absurd same.symm (EReal.coe_ne_top r)
  | zero sign =>
    rw [unpacked] at same
    exact .inl ⟨sign, rfl, (EReal.coe_eq_zero.mp same.symm)⟩
  | finite sign m e pos =>
    rw [unpacked] at same
    exact .inr ⟨sign, m, e, pos, rfl, (EReal.coe_injective same).symm⟩

/-- A double that is a real is finite. -/
theorem Exactly.isFinite (hx : Exactly x r) : x.toModel.unpack.isFinite = true := by
  rcases hx.cases with ⟨sign, zero, -⟩ | ⟨sign, m, e, pos, finite, -⟩
  · rw [zero]
    rfl
  · rw [finite]
    rfl

/-- A real other than nought is one double at most. -/
theorem Exactly.unique (hx : Exactly x r) (hy : Exactly y r) (some : r ≠ 0) : x = y := by
  obtain ⟨-, -, none⟩ | ⟨sign, m, e, pos, unpacked, same⟩ := hx.cases
  · exact (some none).elim
  obtain ⟨-, -, none⟩ | ⟨sign', m', e', pos', unpacked', same'⟩ := hy.cases
  · exact (some none).elim
  have size := size_pos pos e
  have size' := size_pos pos' e'
  have magnitudes : sign = sign' ∧ m * (2 : ℝ) ^ e = m' * (2 : ℝ) ^ e' := by
    rw [same] at same'
    cases sign <;> cases sign' <;> dsimp only [signed] at same'
    · exact ⟨rfl, neg_inj.mp same'⟩
    · linarith
    · linarith
    · exact ⟨rfl, same'⟩
  obtain ⟨rfl, equal⟩ := magnitudes
  obtain ⟨rfl, rfl⟩ :=
    (canonical_of_unpack unpacked).1.unique (canonical_of_unpack unpacked').1 equal
  exact Decimal.eq_of_unpack (unpacked.trans unpacked'.symm)

/-- Nought is a double. -/
theorem exactly_zero : Exactly 0 0 :=
  ⟨defined_zero, valueOf_zero⟩

/-- What fits a mantissa is a double, unless its exponent is out of range. -/
theorem exists_exactly {q : ℕ} {e : ℤ} (sign : Sign) (pos : 0 < q) (small : q < 2 ^ 53)
    (least : -1074 ≤ e) (most : e ≤ 971) : ∃ x, Exactly x (signed sign (q * (2 : ℝ) ^ e)) := by
  obtain ⟨canonical, same⟩ := canonical_room pos small least
  have some : 0 < q * 2 ^ room q e := by positivity
  have valid : Valid (.finite sign _ _ some) := .finite sign some canonical (by omega)
  have unpacked := unpack_pack_of_valid valid UnpackedFloat.noConfusion
  refine ⟨⟨.pack (.finite sign _ (e - room q e) some)⟩, fun undefined => ?_, ?_⟩
  · exact UnpackedFloat.noConfusion (unpacked.symm.trans undefined)
  · rw [← same]
    exact congrArg Binary64.value unpacked

/-- A count of at most 53 bits is a double. -/
theorem exactly_ofNat (pos : 0 < n) (small : n < 2 ^ 53) : Exactly (Float.ofNat n) n := by
  have value := value_toFloat pos small
  have counted : Exactly n.toUInt64.toFloat n := by
    refine ⟨fun undefined => ?_, value⟩
    rw [undefined, Binary64.value] at value
    exact pos.ne (by exact_mod_cast value)
  exact counted.of_near (near_ofNat pos) (defined_ofNat pos)

/-- A sum that is a double is not rounded. -/
theorem Exactly.add (hx : Exactly x r) (hy : Exactly y s) (hz : Exactly z (r + s)) :
    Exactly (x + y) (r + s) := by
  have valid := valid_unpack x.toModel
  have valid' := valid_unpack y.toModel
  have near := near_add x y
  rw [hx.value, hy.value, ← EReal.coe_add] at near
  exact hz.of_near near
    (number_pack (rounds_add valid valid') (add_finite_ne_undefined hx.number hy.isFinite))

/-- The opposite of a double has the opposite value. -/
theorem value_neg (a : UnpackedFloat) : value a.neg = -value a := by
  cases a with
  | notANumber | zero => exact neg_zero.symm
  | infinity sign =>
    cases sign
    · exact (neg_neg (⊤ : EReal)).symm
    · rfl
  | finite sign m e pos =>
    cases sign
    · exact congrArg ((↑) : ℝ → EReal) (neg_neg (m * (2 : ℝ) ^ e)).symm
    · rfl

/-- The difference of two doubles is near to the exact one. -/
theorem near_sub (x y : Float) : Near (valueOf x - valueOf y) (x - y).toModel := by
  have rounded := rounds_add (valid_unpack x.toModel) (valid_unpack y.toModel).neg
  rw [← sub_eq_add, value_neg, ← sub_eq_add_neg] at rounded
  exact near_pack rounded

/-- A difference that is a double is not rounded. -/
theorem Exactly.sub (hx : Exactly x r) (hy : Exactly y s) (hz : Exactly z (r - s)) :
    Exactly (x - y) (r - s) := by
  have near := near_sub x y
  rw [hx.value, hy.value, ← EReal.coe_sub] at near
  exact hz.of_near near (defined_sub_finite hx.number hy.isFinite)

/-- A product that is a double is not rounded. -/
theorem Exactly.mul (hx : Exactly x r) (hy : Exactly y s) (hz : Exactly z (r * s)) :
    Exactly (x * y) (r * s) := by
  have valid := valid_unpack x.toModel
  have valid' := valid_unpack y.toModel
  have near := near_mul x y
  rw [hx.value, hy.value, ← EReal.coe_mul] at near
  have number : x.toModel.unpack.mul .binary64 y.toModel.unpack ≠ .notANumber := by
    rcases hx.cases with ⟨sign, unpacked, -⟩ | ⟨sign, m, e, pos, unpacked, -⟩ <;>
      rcases hy.cases with ⟨sign', unpacked', -⟩ | ⟨sign', m', e', pos', unpacked', -⟩ <;>
      rw [unpacked, unpacked']
    · exact UnpackedFloat.noConfusion
    · exact UnpackedFloat.noConfusion
    · exact UnpackedFloat.noConfusion
    · have canonical := (canonical_of_unpack unpacked).1
      have canonical' := (canonical_of_unpack unpacked').1
      exact (rounds_exact (sign * sign') (canonical.fine_mul pos pos' canonical')).ne_undefined
  exact hz.of_near near (number_pack (rounds_mul valid valid') number)

/-- A double that is a positive real is finite, of positive sign. -/
theorem Exactly.positive (hy : Exactly y s) (pos : 0 < s) :
    ∃ m e some, y.toModel.unpack = .finite .positive m e some := by
  obtain ⟨m, e, some, unpacked, -⟩ := finite_of_value pos hy.value
  exact ⟨m, e, some, unpacked⟩

/-- A quotient by a positive double that is a double is not rounded. -/
theorem Exactly.div (hx : Exactly x r) (hy : Exactly y s) (pos : 0 < s)
    (hz : Exactly z (r / s)) : Exactly (x / y) (r / s) := by
  have above : 0 < valueOf y := hy.value ▸ EReal.coe_pos.mpr pos
  have near := near_div x above
  rw [hx.value, hy.value, ← EReal.coe_div] at near
  have number : x.toModel.unpack.div .binary64 y.toModel.unpack ≠ .notANumber := by
    obtain ⟨n, e', some', unpacked'⟩ := hy.positive pos
    rcases hx.cases with ⟨sign, unpacked, -⟩ | ⟨sign, m, e, some, unpacked, -⟩ <;>
      rw [unpacked, unpacked']
    · exact UnpackedFloat.noConfusion
    · exact (rounds_quotient (sign / .positive) some some').ne_undefined
  exact hz.of_near near
    (number_pack (rounds_div (valid_unpack x.toModel) (valid_unpack y.toModel) above) number)

/-- A count is one more than a double, too. -/
theorem exactly_ofNat_sub_one (pos : 0 < n) (small : n < 2 ^ 53) :
    Exactly (Float.ofNat n - Float.ofNat 1) (n - 1) := by
  have one : Exactly (Float.ofNat 1) 1 := by
    have counted := exactly_ofNat Nat.one_pos (by norm_num)
    rwa [Nat.cast_one] at counted
  obtain ⟨k, rfl⟩ := Nat.exists_eq_succ_of_ne_zero pos.ne'
  have less : Nat.succ k - 1 = (k : ℝ) := by
    rw [Nat.cast_succ, add_sub_cancel_right]
  have before : ∃ z, Exactly z (Nat.succ k - 1) := by
    rw [less]
    rcases Nat.eq_zero_or_pos k with rfl | some
    · exact ⟨0, Nat.cast_zero (R := ℝ) ▸ exactly_zero⟩
    · exact ⟨_, exactly_ofNat some (by omega)⟩
  obtain ⟨z, hz⟩ := before
  exact (exactly_ofNat pos small).sub one hz

/-- A sum with the positive nought is not the negative one. -/
theorem unpack_add_ne (zero : y.toModel.unpack = .zero .positive) :
    (x + y).toModel.unpack ≠ .zero .negative := by
  have sum : (x + y).toModel.unpack =
      (Float.Model.pack (.add .binary64 x.toModel.unpack (.zero .positive))).unpack := by
    rw [← zero]
    rfl
  have valid := valid_unpack x.toModel
  rw [sum]
  generalize x.toModel.unpack = u at valid
  cases u with
  | notANumber => exact fun h => UnpackedFloat.noConfusion h
  | zero sign =>
    have none : UnpackedFloat.add .binary64 (.zero sign) (.zero .positive) = .zero .positive := by
      cases sign <;> rfl
    rw [none, unpack_pack_of_valid (.zero .positive) UnpackedFloat.noConfusion]
    nofun
  | infinity | finite =>
    have same := unpack_pack_of_valid valid UnpackedFloat.noConfusion
    exact fun h => UnpackedFloat.noConfusion (same.symm.trans h)

/-- Nought is the positive one if it is not the negative one. -/
theorem Exactly.unpack_zero (hx : Exactly x 0) (plain : x.toModel.unpack ≠ .zero .negative) :
    x.toModel.unpack = .zero .positive := by
  rcases hx.cases with ⟨sign, zero, -⟩ | ⟨sign, m, e, pos, -, none⟩
  · cases sign
    · exact (plain zero).elim
    · exact zero
  · have size := size_pos pos e
    cases sign <;> dsimp only [signed] at none <;> linarith

/-- The positive nought over a positive double is the positive nought. -/
theorem unpack_zero_div (zero : x.toModel.unpack = .zero .positive) (hy : Exactly y s)
    (pos : 0 < s) : (x / y).toModel.unpack = .zero .positive := by
  obtain ⟨m, e, some, unpacked⟩ := hy.positive pos
  have quotient : (x / y).toModel.unpack =
      (Float.Model.pack
        (.div .binary64 (.zero .positive) (.finite .positive m e some))).unpack := by
    rw [← zero, ← unpacked]
    rfl
  exact quotient.trans (unpack_pack_of_valid (.zero .positive) UnpackedFloat.noConfusion)

section Means

variable (ln : Float → Float) {mean total : Float} {m : ℝ}

/-- That a double is a real of which no multiple is rounded, up to a number of times. -/
structure Multiplies (total : Float) (r : ℝ) (n : ℕ) : Prop where
  /-- It is this real. -/
  once : Exactly total r
  /-- So often all its multiples are doubles. -/
  often : ∀ k, 0 < k → k ≤ n → ∃ multiple, Exactly multiple (k * r)

/-- No multiple of a return is rounded if the return is a whole number of some
power of two, and all its multiples fit a mantissa. -/
theorem multiplies_of_whole {sign : Sign} {q : ℕ} {e : ℤ}
    (whole : Exactly total (signed sign (q * (2 : ℝ) ^ e))) (pos : 0 < q) (small : n * q < 2 ^ 53)
    (least : -1074 ≤ e) (most : e ≤ 971) :
    Multiplies total (signed sign (q * (2 : ℝ) ^ e)) n := by
  refine ⟨whole, fun k some within => ?_⟩
  have fits : k * q < 2 ^ 53 := (Nat.mul_le_mul_right q within).trans_lt small
  have multiple : k * signed sign (q * (2 : ℝ) ^ e) = signed sign ((k * q : ℕ) * (2 : ℝ) ^ e) := by
    rw [Nat.cast_mul, mul_assoc]
    cases sign
    · exact mul_neg _ _
    · rfl
  rw [multiple]
  exact exists_exactly sign (Nat.mul_pos some pos) fits least most

/-- A return is folded into a mean without rounding if no multiple of it is
rounded, and the mean is the return already or has no weight yet. -/
theorem Multiplies.fold (multiplies : Multiplies total r (n + 1)) (small : n + 1 < 2 ^ 53)
    (hm : Exactly mean m) (same : n * m = n * r) :
    Exactly ((Float.ofNat (n + 1) - Float.ofNat 1) * mean + total) ((n + 1 : ℕ) * r) ∧
      Exactly (@foldMean Float (.binary64 ln) (n + 1) mean total) r := by
  have pos : 0 < n + 1 := Nat.succ_pos n
  have count : (0 : ℝ) < (n + 1 : ℕ) := Nat.cast_pos.mpr pos
  have less : ((n + 1 : ℕ) : ℝ) - 1 = n := by rw [Nat.cast_succ, add_sub_cancel_right]
  have whole : n * r + r = (n + 1 : ℕ) * r := by rw [Nat.cast_succ, add_one_mul]
  have part : (n + 1 : ℕ) * r / (n + 1 : ℕ) = r := mul_div_cancel_left₀ r count.ne'
  have before : ∃ z, Exactly z (n * m) := by
    rw [same]
    rcases Nat.eq_zero_or_pos n with rfl | some
    · rw [Nat.cast_zero, zero_mul]
      exact ⟨0, exactly_zero⟩
    · exact multiplies.often n some (Nat.le_succ n)
  obtain ⟨_, before⟩ := before
  obtain ⟨_, multiple⟩ := multiplies.often (n + 1) pos le_rfl
  have weight := exactly_ofNat_sub_one pos small
  rw [less] at weight
  have sum := (weight.mul hm before).add multiplies.once (by rwa [same, whole])
  rw [same, whole] at sum
  have quotient := sum.div (exactly_ofNat pos small) count (part.symm ▸ multiplies.once)
  rw [part] at quotient
  exact ⟨sum, quotient⟩

/-- The mean after such a return has been folded in so many times is the return. -/
theorem Multiplies.runningMean (multiplies : Multiplies total r n) (small : n < 2 ^ 53) :
    ∃ m, Exactly (@runningMean Float (.binary64 ln) (List.replicate n total)) m ∧
      n * m = n * r := by
  induction n with
  | zero => exact ⟨0, exactly_zero, by rw [Nat.cast_zero, zero_mul, zero_mul]⟩
  | succ n ih =>
    have fewer : Multiplies total r n :=
      ⟨multiplies.once, fun k some most => multiplies.often k some (Nat.le_succ_of_le most)⟩
    obtain ⟨m, hm, same⟩ := ih fewer (by omega)
    have folded := (multiplies.fold ln small hm same).2
    rw [List.replicate_succ', @runningMean_concat Float (.binary64 ln), List.length_replicate]
    exact ⟨r, folded, rfl⟩

/-- If the return is not the negative nought, the mean is the very same double. -/
theorem Multiplies.runningMean_eq (multiplies : Multiplies total r n) (some : 0 < n)
    (small : n < 2 ^ 53) (plain : total.toModel.unpack ≠ .zero .negative) :
    @HorizonUct.runningMean Float (.binary64 ln) (List.replicate n total) = total := by
  obtain ⟨n, rfl⟩ := Nat.exists_eq_succ_of_ne_zero some.ne'
  have fewer : Multiplies total r n :=
    ⟨multiplies.once, fun k some most => multiplies.often k some (Nat.le_succ_of_le most)⟩
  obtain ⟨m, hm, same⟩ := fewer.runningMean ln (Nat.lt_of_succ_lt small)
  obtain ⟨sum, quotient⟩ := multiplies.fold ln small hm same
  rw [List.replicate_succ', @runningMean_concat Float (.binary64 ln), List.length_replicate]
  by_cases none : r = 0
  · subst none
    -- noughts have one value, so the sign is followed through the fold
    have zero := multiplies.once.unpack_zero plain
    rw [mul_zero] at sum
    have zero' := sum.unpack_zero (unpack_add_ne zero)
    have folded := unpack_zero_div zero' (exactly_ofNat some small) (Nat.cast_pos.mpr some)
    exact Decimal.eq_of_unpack (folded.trans zero.symm)
  · exact quotient.unique multiplies.once none

end Means

end HorizonUct.Binary64
