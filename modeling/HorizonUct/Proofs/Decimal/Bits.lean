import HorizonUct.Decimal.Binary
import HorizonUct.Proofs.Binary64.Packing

/-!
# The exact reading tells a double

The bits of a double are its sign, its exponent field and its fraction. Its
exact reading is that of what it unpacks to, and since there is only one double
that is not a number, no two doubles have the same exact reading.
-/

namespace HorizonUct.Decimal

open Float.Model (Format UnpackedFloat)
open Float.Model.UnpackedFloat (Sign unpackExponent unpackMantissa unpackSign)
open Binary64 (toNat_leading)

variable {bits bits' : UInt64} {negative : Bool} {size : Magnitude}

/-- The exponent field of a double. -/
def field (bits : UInt64) : ℕ := bits.toNat / 2 ^ 52 % 2 ^ 11

/-- The fraction of a double. -/
def fraction (bits : UInt64) : ℕ := bits.toNat % 2 ^ 52

/-- Whether the sign of a double is minus. -/
def minus (bits : UInt64) : Bool := bits.toNat / 2 ^ 63 == 1

/-- The three of them tell the bits. -/
theorem bits_eq (sign : minus bits = minus bits') (exponent : field bits = field bits')
    (rest : fraction bits = fraction bits') : bits = bits' := by
  have small := bits.toNat_lt
  have small' := bits'.toNat_lt
  have sign : bits.toNat / 2 ^ 63 = 1 ↔ bits'.toNat / 2 ^ 63 = 1 := by
    rw [minus, minus, Bool.eq_iff_iff, beq_iff_eq, beq_iff_eq] at sign
    exact sign
  unfold field at exponent
  unfold fraction at rest
  exact UInt64.toNat_inj.mp (by omega)

/-- The exact reading of bits, told by the three of them. -/
theorem ofBits_eq (bits : UInt64) : Double.ofBits bits =
    if field bits = 2047 then
      if fraction bits = 0 then .infinite (minus bits) else .undefined
    else if field bits = 0 then .finite (minus bits) ⟨fraction bits, -1074, false⟩
    else .finite (minus bits)
      ⟨2 ^ 52 + fraction bits, field bits - 1075, fraction bits == 0 && 1 < field bits⟩ := by
  have exponent : ((bits >>> 52) &&& 0x7FF).toNat = field bits := by
    rw [UInt64.toNat_and, UInt64.toNat_shiftRight, field, ← Nat.shiftRight_eq_div_pow]
    exact Nat.and_two_pow_sub_one_eq_mod _ 11
  have rest : (bits &&& 0xFFFFFFFFFFFFF).toNat = fraction bits := by
    rw [UInt64.toNat_and]
    exact Nat.and_two_pow_sub_one_eq_mod _ 52
  have sign : (bits >>> 63 == 1) = minus bits := by
    rw [minus, Bool.eq_iff_iff, beq_iff_eq, beq_iff_eq, ← UInt64.toNat_inj,
      UInt64.toNat_shiftRight, Nat.shiftRight_eq_div_pow]
    rfl
  unfold Double.ofBits
  dsimp only
  rw [exponent, rest, sign]
  simp only [beq_iff_eq]
  rfl

/-- The exponent field as it is unpacked. -/
theorem unpackExponent_eq_iff (bits : UInt64) (exponent : BitVec 11) :
    @unpackExponent .binary64 bits.toBitVec = exponent ↔ field bits = exponent.toNat := by
  have read : (@unpackExponent .binary64 bits.toBitVec).toNat = field bits := by
    simp [unpackExponent, field, Nat.shiftRight_eq_div_pow]
  rw [← read]
  exact BitVec.toNat_inj.symm

/-- The fraction as it is unpacked. -/
theorem unpackMantissa_eq_iff (bits : UInt64) (mantissa : BitVec 52) :
    @unpackMantissa .binary64 bits.toBitVec = mantissa ↔ fraction bits = mantissa.toNat := by
  have read : (@unpackMantissa .binary64 bits.toBitVec).toNat = fraction bits := by
    simp [unpackMantissa, fraction]
  rw [← read]
  exact BitVec.toNat_inj.symm

/-- Whether a sign is minus. -/
def isMinus : Sign → Bool
  | .negative => true
  | .positive => false

/-- The sign as it is unpacked. -/
theorem isMinus_unpackSign (bits : UInt64) :
    isMinus (.ofBitVec (@unpackSign .binary64 bits.toBitVec)) = minus bits := by
  have small := bits.toNat_lt
  have read : (@unpackSign .binary64 bits.toBitVec).toNat = bits.toNat / 2 ^ 63 % 2 := by
    simp [unpackSign, Nat.shiftRight_eq_div_pow]
  rw [Bool.eq_iff_iff, minus, beq_iff_eq]
  unfold Sign.ofBitVec
  split
  · next zero =>
    rw [zero] at read
    exact iff_of_false Bool.false_ne_true fun one => by rw [one] at read; cases read
  · next some =>
    have set : (@unpackSign .binary64 bits.toBitVec).toNat ≠ 0 :=
      fun zero => some (BitVec.eq_of_toNat_eq zero)
    exact iff_of_true rfl (by omega)

/-- The exact reading of what a double unpacks to. -/
def exactly : UnpackedFloat → Double
  | .notANumber => .undefined
  | .infinity sign => .infinite (isMinus sign)
  | .zero sign => .finite (isMinus sign) ⟨0, -1074, false⟩
  | .finite sign m e _ => .finite (isMinus sign) ⟨m, e, m == 2 ^ 52 && -1074 < e⟩

/-- The exact reading of a double is that of what it unpacks to. -/
theorem ofFloat_eq (x : Float) : Double.ofFloat x = exactly x.toModel.unpack := by
  have small : fraction x.toBits < 2 ^ 52 := Nat.mod_lt _ (by decide)
  have exponent := (unpackExponent_eq_iff x.toBits _).mp rfl
  have rest := (unpackMantissa_eq_iff x.toBits _).mp rfl
  have sign := isMinus_unpackSign x.toBits
  have bias : ((Format.binary64.exponentBias : ℤ) + (52 : ℕ)) = 1075 := rfl
  rw [Double.ofFloat, ofBits_eq]
  show _ = exactly (UnpackedFloat.unpack .binary64 x.toBits.toBitVec)
  unfold UnpackedFloat.unpack
  dsimp only
  split
  · next all =>
    rw [if_pos ((unpackExponent_eq_iff _ _).mpr all)]
    split
    · next none => rw [if_pos ((unpackMantissa_eq_iff _ _).mpr none), exactly, sign]
    · next some => rw [if_neg (mt (unpackMantissa_eq_iff _ _).mp some), exactly]
  · next limited =>
    rw [if_neg (mt (unpackExponent_eq_iff _ _).mp limited)]
    split
    · next least =>
      have least' := (unpackExponent_eq_iff x.toBits 0#11).mpr least
      rw [if_pos least']
      split
      · next none =>
        have none := (unpackMantissa_eq_iff _ _).mp none
        rw [exactly, sign, none]
        rfl
      · next some =>
        have apart : (fraction x.toBits == 2 ^ 52) = false := beq_eq_false_iff_ne.mpr small.ne
        rw [exactly, sign, ← rest, apart, Bool.false_and, least', bias]
        rfl
    · next more =>
      rw [if_neg (mt (unpackExponent_eq_iff _ _).mp more), exactly, sign, toNat_leading, ← rest,
        ← exponent, bias]
      congr 2
      rw [Bool.eq_iff_iff, Bool.and_eq_true, Bool.and_eq_true, beq_iff_eq, beq_iff_eq,
        decide_eq_true_iff, decide_eq_true_iff]
      omega

/-- Bits that are not read as a number. -/
theorem fields_of_undefined (h : Double.ofBits bits = .undefined) :
    field bits = 2047 ∧ fraction bits ≠ 0 := by
  rw [ofBits_eq] at h
  split_ifs at h with all some
  exact ⟨all, some⟩

/-- Bits that are read as infinite. -/
theorem fields_of_infinite (h : Double.ofBits bits = .infinite negative) :
    minus bits = negative ∧ field bits = 2047 ∧ fraction bits = 0 := by
  rw [ofBits_eq] at h
  split_ifs at h with all none
  exact ⟨Double.infinite.inj h, all, none⟩

/-- Bits that are read as a finite double. -/
theorem fields_of_finite (h : Double.ofBits bits = .finite negative size) :
    minus bits = negative ∧ fraction bits = size.significand % 2 ^ 52 ∧
      (field bits : ℤ) = if size.significand < 2 ^ 52 then 0 else size.exponent + 1075 := by
  have small : fraction bits < 2 ^ 52 := Nat.mod_lt _ (by decide)
  rw [ofBits_eq] at h
  split_ifs at h with all none least
  · obtain ⟨sign, rfl⟩ := Double.finite.inj h
    exact ⟨sign, (Nat.mod_eq_of_lt small).symm, by rw [if_pos small, least, Nat.cast_zero]⟩
  · obtain ⟨sign, rfl⟩ := Double.finite.inj h
    dsimp only
    refine ⟨sign, by omega, ?_⟩
    rw [if_neg (by omega)]
    omega

/-- No two doubles have the same exact reading. -/
theorem ofFloat_injective {x y : Float} (same : Double.ofFloat x = Double.ofFloat y) : x = y := by
  suffices word : x.toBits = y.toBits by
    obtain ⟨⟨first, valid⟩⟩ := x
    obtain ⟨⟨second, valid'⟩⟩ := y
    have word : first = second := word
    subst word
    rfl
  cases read : Double.ofFloat x with
  | undefined =>
    have lone : ∀ {z : Float}, Double.ofFloat z = .undefined →
        z.toBits.toBitVec = UnpackedFloat.packedNaN .binary64 := by
      intro z h
      obtain ⟨all, some⟩ := fields_of_undefined h
      exact z.toModel.valid.eq_packedNaN ((unpackExponent_eq_iff _ _).mpr all)
        (mt (unpackMantissa_eq_iff _ _).mp some)
    exact UInt64.toBitVec_inj.mp ((lone read).trans (lone (same.symm.trans read)).symm)
  | infinite negative =>
    obtain ⟨sign, all, none⟩ := fields_of_infinite read
    obtain ⟨sign', all', none'⟩ := fields_of_infinite (same.symm.trans read)
    exact bits_eq (sign.trans sign'.symm) (all.trans all'.symm) (none.trans none'.symm)
  | finite negative size =>
    obtain ⟨sign, rest, exponent⟩ := fields_of_finite read
    obtain ⟨sign', rest', exponent'⟩ := fields_of_finite (same.symm.trans read)
    exact bits_eq (sign.trans sign'.symm) (by exact_mod_cast exponent.trans exponent'.symm)
      (rest.trans rest'.symm)

/-- A double is told by what it unpacks to. -/
theorem eq_of_unpack {x y : Float} (same : x.toModel.unpack = y.toModel.unpack) : x = y :=
  ofFloat_injective (by rw [ofFloat_eq, ofFloat_eq, same])

end HorizonUct.Decimal
