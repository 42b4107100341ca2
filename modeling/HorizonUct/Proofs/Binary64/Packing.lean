import HorizonUct.Proofs.Binary64.Rounding

/-!
# Doubles in 64 bits

A finite double has a full mantissa unless its exponent is the least one. Such
a mantissa and exponent are put into 64 bits without loss. Only what was
rounded to too great an exponent changes then: it becomes infinite.
-/

namespace HorizonUct.Binary64

open Float.Model (Format UnpackedFloat)
open Float.Model.UnpackedFloat (Sign packComponents unpackExponent unpackMantissa unpackSign
  unpackExponent_packComponents unpackMantissa_packComponents)

/-- A mantissa with its exponent as the format has them, but for a greatest exponent. -/
structure Canonical (m : ℕ) (e : ℤ) : Prop where
  /-- The mantissa fits. -/
  small : m < 2 ^ 53
  /-- The exponent is not too small. -/
  least : -1074 ≤ e
  /-- The mantissa is full unless the exponent is the least. -/
  full : 2 ^ 52 ≤ m ∨ e = -1074

/-- The mantissa of a normal double has a leading bit that is not stored. -/
theorem toNat_leading (bits : BitVec 52) : (1#1 ++ bits).toNat = 2 ^ 52 + bits.toNat := by
  rw [BitVec.toNat_append, ← Nat.shiftLeft_add_eq_or_of_lt bits.isLt]
  rfl

/-- What a double unpacks to is canonical if it is finite. -/
theorem canonical_of_unpack {x : Float.Model} {sign : Sign} {m : ℕ} {e : ℤ} {pos : 0 < m}
    (h : x.unpack = .finite sign m e pos) : Canonical m e ∧ e ≤ 971 := by
  have small : (@unpackMantissa .binary64 x.toBits.toBitVec).toNat < 2 ^ 52 := BitVec.isLt _
  have bound : (@unpackExponent .binary64 x.toBits.toBitVec).toNat < 2 ^ 11 := BitVec.isLt _
  have bias : ((Format.binary64.exponentBias : ℤ) + (52 : ℕ)) = 1075 := rfl
  unfold Float.Model.unpack UnpackedFloat.unpack at h
  dsimp only at h
  split at h
  · split at h <;> cases h
  · next limited =>
    have limited : (@unpackExponent .binary64 x.toBits.toBitVec).toNat ≠ 2047 :=
      fun all => limited (BitVec.eq_of_toNat_eq all)
    split at h
    · next none =>
      split at h
      · cases h
      · cases h
        rw [none, bias]
        exact ⟨⟨by omega, le_refl _, .inr rfl⟩, by decide⟩
    · next some =>
      have some : (@unpackExponent .binary64 x.toBits.toBitVec).toNat ≠ 0 :=
        fun none => some (BitVec.eq_of_toNat_eq none)
      cases h
      rw [toNat_leading, bias]
      exact ⟨⟨by omega, by omega, .inl (by omega)⟩, by omega⟩

/-- Putting a quantity back into 64 bits makes it infinite if its exponent is too great. -/
def clamp : UnpackedFloat → UnpackedFloat
  | .finite sign m e pos => if e ≤ 971 then .finite sign m e pos else .infinity sign
  | x => x

/-- What is not finite, or zero, stays what it is. -/
theorem unpack_pack_special {x : UnpackedFloat}
    (special : ∀ sign m e pos, x ≠ .finite sign m e pos) :
    (Float.Model.pack x).unpack = clamp x := by
  cases x with
  | infinity sign => cases sign <;> rfl
  | notANumber => rfl
  | zero sign => cases sign <;> rfl
  | finite sign m e pos => exact (special sign m e pos rfl).elim

/-- The sign of a double that is put together. -/
theorem unpackSign_packComponents (sign : Sign) (exponent : BitVec 11) (mantissa : BitVec 52) :
    Sign.ofBitVec (@unpackSign .binary64 (packComponents .binary64 sign exponent mantissa)) =
      sign := by
  have bits : @unpackSign .binary64 (packComponents .binary64 sign exponent mantissa) =
      sign.toBitVec := by
    show (sign.toBitVec ++ exponent ++ mantissa).extractLsb' 63 1 = sign.toBitVec
    rw [BitVec.extractLsb'_append_eq_of_le (by decide),
      BitVec.extractLsb'_append_eq_of_le (by decide)]
    cases sign <;> rfl
  rw [bits]
  cases sign <;> rfl

/-- A full mantissa with an exponent in range is put into 64 bits without loss. -/
theorem unpack_pack_normal (sign : Sign) {m : ℕ} {e : ℤ} (pos : 0 < m) (small : m < 2 ^ 53)
    (full : 2 ^ 52 ≤ m) (least : -1074 ≤ e) (greatest : e ≤ 971) :
    (Float.Model.pack (.finite sign m e pos)).unpack = .finite sign m e pos := by
  have digits : m.log2 + 1 = 53 := by
    have log := (Nat.log2_eq_iff pos.ne').mpr ⟨full, small⟩
    omega
  have biased : (e + (Format.binary64.exponentBias : ℤ) + (52 : ℕ)).toNat = (e + 1075).toNat := by
    show (e + 1023 + 52).toNat = _
    rw [add_assoc]
    rfl
  have exponent : (BitVec.ofNat 11 (e + 1075).toNat).toNat = (e + 1075).toNat := by
    rw [BitVec.toNat_ofNat]
    omega
  have limited : BitVec.ofNat 11 (e + 1075).toNat ≠ -1#11 := by
    intro all
    have all := congrArg BitVec.toNat all
    rw [exponent] at all
    change (e + 1075).toNat = 2047 at all
    omega
  have some : BitVec.ofNat 11 (e + 1075).toNat ≠ 0#11 := by
    intro none
    have none := congrArg BitVec.toNat none
    rw [exponent] at none
    change (e + 1075).toNat = 0 at none
    omega
  have mantissa : (1#1 ++ BitVec.ofNat 52 m).toNat = m := by
    rw [toNat_leading, BitVec.toNat_ofNat]
    omega
  show UnpackedFloat.unpack .binary64 (UnpackedFloat.pack .binary64 _) = _
  unfold UnpackedFloat.pack
  dsimp only
  rw [biased, if_neg (by show ¬ 2048 ≤ (e + 1075).toNat + 1; omega),
    if_pos (show m.log2 + 1 = Format.binary64.mantissaBits from digits)]
  unfold UnpackedFloat.unpack
  simp only [unpackExponent_packComponents, unpackMantissa_packComponents,
    unpackSign_packComponents, limited, some, if_false, exponent, mantissa]
  congr 1
  show ((e + 1075).toNat : ℤ) - (1023 + 52) = e
  omega

/-- A mantissa that is not full is put into 64 bits without loss at the least exponent. -/
theorem unpack_pack_subnormal (sign : Sign) {m : ℕ} (pos : 0 < m) (small : m < 2 ^ 52) :
    (Float.Model.pack (.finite sign m (-1074) pos)).unpack = .finite sign m (-1074) pos := by
  have digits : m.log2 + 1 ≠ Format.binary64.mantissaBits := by
    have log := (Nat.log2_lt pos.ne').mpr small
    show m.log2 + 1 ≠ 53
    omega
  have mantissa : (BitVec.ofNat 52 m).toNat = m := by
    rw [BitVec.toNat_ofNat]
    omega
  have some : BitVec.ofNat 52 m ≠ 0#52 := by
    intro none
    have none := congrArg BitVec.toNat none
    rw [mantissa] at none
    exact pos.ne' none
  have limited : (0#11 : BitVec 11) ≠ -1#11 := by decide
  show UnpackedFloat.unpack .binary64 (UnpackedFloat.pack .binary64 _) = _
  unfold UnpackedFloat.pack
  dsimp only
  rw [if_neg (by decide), if_neg digits]
  unfold UnpackedFloat.unpack
  simp only [unpackExponent_packComponents, unpackMantissa_packComponents,
    unpackSign_packComponents, limited, some, if_true, if_false, dite_false, mantissa]
  rfl

/-- Putting a canonical quantity into 64 bits limits its exponent from above. -/
theorem unpack_pack_finite (sign : Sign) {m : ℕ} {e : ℤ} (pos : 0 < m)
    (canonical : Canonical m e) :
    (Float.Model.pack (.finite sign m e pos)).unpack = clamp (.finite sign m e pos) := by
  have least := canonical.least
  by_cases greatest : e ≤ 971
  · rw [clamp, if_pos greatest]
    rcases Nat.lt_or_ge m (2 ^ 52) with short | full
    · obtain rfl := canonical.full.resolve_left (Nat.not_le_of_gt short)
      exact unpack_pack_subnormal sign pos short
    · exact unpack_pack_normal sign pos canonical.small full least greatest
  · have beyond : 2 ^ Format.binary64.exponentBits ≤
        (e + (Format.binary64.exponentBias : ℤ) + (52 : ℕ)).toNat + 1 := by
      show 2 ^ 11 ≤ (e + 1023 + 52).toNat + 1
      omega
    have same : Float.Model.pack (.finite sign m e pos) = Float.Model.pack (.infinity sign) := by
      unfold Float.Model.pack UnpackedFloat.pack
      simp only [beyond, if_true]
    rw [same, clamp, if_neg greatest]
    exact unpack_pack_special fun _ _ _ _ => UnpackedFloat.noConfusion

/-- A double as it is unpacked: not a number, infinite, or zero or canonical within the range. -/
inductive Valid : UnpackedFloat → Prop where
  /-- Not a number. -/
  | undefined : Valid .notANumber
  /-- Infinite. -/
  | infinity (sign : Sign) : Valid (.infinity sign)
  /-- Zero. -/
  | zero (sign : Sign) : Valid (.zero sign)
  /-- Finite and not zero. -/
  | finite (sign : Sign) {m : ℕ} {e : ℤ} (pos : 0 < m) (canonical : Canonical m e)
      (greatest : e ≤ 971) : Valid (.finite sign m e pos)

/-- What is valid is in range. -/
theorem clamp_of_valid {x : UnpackedFloat} (h : Valid x) : clamp x = x := by
  cases h with
  | undefined | infinity | zero => rfl
  | finite sign pos canonical greatest => exact if_pos greatest

/-- Every double is valid. -/
theorem valid_unpack (x : Float.Model) : Valid x.unpack := by
  cases h : x.unpack with
  | notANumber => exact .undefined
  | infinity sign => exact .infinity sign
  | zero sign => exact .zero sign
  | finite sign m e pos =>
    have canonical := canonical_of_unpack h
    exact .finite sign pos canonical.1 canonical.2

end HorizonUct.Binary64
