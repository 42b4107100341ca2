import HorizonUct.Proofs.Binary64.Operations

/-!
# The doubles of decimals

A double is the nearest one to every value between the midpoints on either side
of it, and at a midpoint if its mantissa is even. Below a power of two the
doubles lie twice as close, so there the midpoint does. The double of a decimal
is the nearest one, also where it is the product or the quotient of two doubles,
since these are then exact.
-/

namespace HorizonUct.Binary64

open Float.Model (UnpackedFloat)
open Float.Model.UnpackedFloat (Sign roundWithAccuracy)

variable {m n : ℕ} {e : ℤ} {x : ℝ}

/-- A value has at most one canonical mantissa and exponent. -/
theorem Canonical.unique {m' : ℕ} {e' : ℤ} (canonical : Canonical m e)
    (canonical' : Canonical m' e') (same : m * (2 : ℝ) ^ e = m' * (2 : ℝ) ^ e') :
    m = m' ∧ e = e' := by
  rcases lt_trichotomy e e' with less | rfl | more
  · exact absurd same (canonical.lt canonical' (.inl less)).ne
  · refine ⟨?_, rfl⟩
    have unit : (2 : ℝ) ^ e ≠ 0 := (zpow_pos two_pos e).ne'
    exact_mod_cast mul_right_cancel₀ unit same
  · exact absurd same (canonical'.lt canonical (.inl more)).ne'

/-- A positive double with a finite value is finite. -/
theorem finite_of_value {a : Float.Model} (pos : 0 < x) (same : value a.unpack = (x : EReal)) :
    ∃ m e some, a.unpack = .finite .positive m e some ∧ Canonical m e ∧ m * (2 : ℝ) ^ e = x := by
  have above : 0 < value a.unpack := same ▸ EReal.coe_pos.mpr pos
  rcases positive_cases (valid_unpack a) above with infinite | ⟨m, e, some, finite⟩
  · rw [infinite] at same
    exact absurd same.symm (EReal.coe_ne_top _)
  · rw [finite] at same
    exact ⟨m, e, some, finite, (canonical_of_unpack finite).1, EReal.coe_injective same⟩

/-- Its value tells it. -/
theorem unpack_eq_of_value {a : Float.Model} (canonical : Canonical m e) (pos : 0 < m)
    (same : value a.unpack = ((m * (2 : ℝ) ^ e : ℝ) : EReal)) :
    a.unpack = .finite .positive m e pos := by
  obtain ⟨m', e', some, finite, canonical', equal⟩ := finite_of_value (size_pos pos e) same
  obtain ⟨rfl, rfl⟩ := canonical'.unique canonical equal
  exact finite

/-- A value is not beyond the midpoints around a double. -/
structure Closest (m : ℕ) (e : ℤ) (x : ℝ) : Prop extends Nearest (x / (2 : ℝ) ^ e) m where
  /-- Below a power of two the midpoint is closer. -/
  closer : m = 2 ^ 52 → -1074 < e → (m : ℝ) - 1 / 4 ≤ x / (2 : ℝ) ^ e

/-- Such a value is not negative. -/
theorem Closest.nonneg (closest : Closest m e x) (pos : 0 < m) : 0 ≤ x := by
  have unit : (0 : ℝ) < (2 : ℝ) ^ e := zpow_pos two_pos e
  have some : (1 : ℝ) ≤ m := by exact_mod_cast pos
  have scaled : 0 ≤ x / (2 : ℝ) ^ e := by linarith [closest.above]
  rwa [le_div_iff₀ unit, zero_mul] at scaled

/-- Just below a power of two the mantissa with the exponent below carries. -/
theorem Closest.placed_carry (closest : Closest (2 ^ 52) e x) (above : -1074 < e)
    (less : x / (2 : ℝ) ^ e < 2 ^ 52) : Placed x (2 ^ 53) (e - 1) := by
  have unit : (0 : ℝ) < (2 : ℝ) ^ (e - 1) := zpow_pos two_pos _
  have halved : x / (2 : ℝ) ^ (e - 1) = 2 * (x / (2 : ℝ) ^ e) := by
    rw [zpow_sub_one₀ two_ne_zero]
    field_simp
  have closer := closest.closer rfl above
  push_cast at closer
  refine ⟨by omega, ?_, .inr ?_, ?_, ?_, fun _ => by decide⟩
  · rw [← div_lt_iff₀ unit, halved]
    linarith
  · rw [← le_div_iff₀ unit, halved]
    linarith
  · rw [halved]
    push_cast
    linarith
  · rw [halved]
    push_cast
    linarith

/-- Elsewhere the mantissa is the nearest with its own exponent. -/
theorem Closest.placed (closest : Closest m e x) (canonical : Canonical m e)
    (fills : e = -1074 ∨ 2 ^ 52 ≤ x / (2 : ℝ) ^ e) : Placed x m e := by
  have unit : (0 : ℝ) < (2 : ℝ) ^ e := zpow_pos two_pos e
  have small : (m : ℝ) + 1 ≤ 2 ^ 53 := by exact_mod_cast canonical.small
  refine ⟨canonical.least, ?_, fills.imp_right (le_div_iff₀ unit).mp, closest.toNearest⟩
  rw [← div_lt_iff₀ unit]
  linarith [closest.below]

/-- A value that is not beyond the midpoints around a double is rounded to it. -/
theorem Closest.rounds (closest : Closest m e x) (canonical : Canonical m e) (pos : 0 < m) :
    Rounds (x : EReal) (.finite .positive m e pos) := by
  by_cases fills : e = -1074 ∨ 2 ^ 52 ≤ x / (2 : ℝ) ^ e
  · have same : settled .positive m e = .finite .positive m e pos := by
      rw [settled, dif_neg pos.ne', if_neg canonical.small.ne]
    exact same ▸ .finite .positive (closest.nonneg pos) (closest.placed canonical fills)
  · obtain ⟨above, less⟩ := not_or.mp fills
    have less := not_le.mp less
    have even : m = 2 ^ 52 := by
      have full : 2 ^ 52 ≤ m := canonical.full.resolve_right above
      have near : (m : ℝ) < 2 ^ 52 + 1 := by linarith [closest.above]
      have near : m < 2 ^ 52 + 1 := by exact_mod_cast near
      omega
    subst even
    have carried : settled .positive (2 ^ 53) (e - 1) = .finite .positive (2 ^ 52) e pos := by
      simp only [settled, sub_add_cancel]
      norm_num
    have placed := closest.placed_carry (lt_of_le_of_ne canonical.least (Ne.symm above)) less
    exact carried ▸ .finite .positive (closest.nonneg pos) placed

/-- Eight to some power is at most ten to it. -/
theorem two_zpow_le (k : ℕ) : (2 : ℝ) ^ (3 * k : ℤ) ≤ (10 : ℝ) ^ (k : ℤ) := by
  rw [zpow_mul, zpow_natCast, zpow_natCast]
  exact pow_le_pow_left₀ (by positivity) (by norm_num) k

/-- A value that is not beyond the midpoints around a double is in the range of doubles. -/
theorem Closest.bounds (closest : Closest m e x) (canonical : Canonical m e) (greatest : e ≤ 971)
    (pos : 0 < m) : (10 : ℝ) ^ (-400 : ℤ) ≤ x ∧ x < (10 : ℝ) ^ (400 : ℤ) := by
  have unit : (0 : ℝ) < (2 : ℝ) ^ e := zpow_pos two_pos e
  have some : (1 : ℝ) ≤ m := by exact_mod_cast pos
  have small : (m : ℝ) + 1 ≤ 2 ^ 53 := by exact_mod_cast canonical.small
  constructor
  · calc (10 : ℝ) ^ (-400 : ℤ) ≤ (2 : ℝ) ^ (-(3 * (400 : ℕ)) : ℤ) := by
          rw [zpow_neg, zpow_neg]
          exact inv_anti₀ (zpow_pos two_pos _) (two_zpow_le 400)
      _ ≤ (2 : ℝ) ^ (e - 1) :=
        zpow_le_zpow_right₀ one_le_two (by have := canonical.least; omega)
      _ = 1 / 2 * (2 : ℝ) ^ e := by rw [zpow_sub_one₀ two_ne_zero]; ring
      _ ≤ x := by
        rw [← le_div_iff₀ unit]
        linarith [closest.above]
  · calc x < 2 ^ 53 * (2 : ℝ) ^ e := by
          rw [← div_lt_iff₀ unit]
          linarith [closest.below]
      _ = (2 : ℝ) ^ (53 + e) := by rw [zpow_add₀ two_ne_zero]; norm_cast
      _ ≤ (2 : ℝ) ^ (3 * (400 : ℕ) : ℤ) := zpow_le_zpow_right₀ one_le_two (by omega)
      _ ≤ (10 : ℝ) ^ (400 : ℤ) := two_zpow_le 400

/-- The places by which a mantissa can be shifted up, until it is full or its
exponent is the least. -/
def room (m : ℕ) (e : ℤ) : ℕ := min (52 - m.log2) (e + 1074).toNat

/-- What fits a mantissa is canonical once it is shifted up as far as it can be. -/
theorem canonical_room (pos : 0 < m) (small : m < 2 ^ 53) (least : -1074 ≤ e) :
    Canonical (m * 2 ^ room m e) (e - room m e) ∧
      ((m * 2 ^ room m e : ℕ) : ℝ) * (2 : ℝ) ^ (e - room m e) = m * (2 : ℝ) ^ e := by
  have digits : m.log2 ≤ 52 := Nat.le_of_lt_succ ((Nat.log2_lt pos.ne').mpr small)
  have within : room m e ≤ 52 - m.log2 := min_le_left _ _
  have above : (room m e : ℤ) ≤ e + 1074 := by
    have bound : room m e ≤ (e + 1074).toNat := min_le_right _ _
    omega
  refine ⟨⟨?_, by omega, ?_⟩, ?_⟩
  · calc m * 2 ^ room m e < 2 ^ (m.log2 + 1) * 2 ^ (52 - m.log2) :=
          Nat.mul_lt_mul_of_lt_of_le Nat.lt_log2_self
            (Nat.pow_le_pow_right two_pos within) (by positivity)
      _ = 2 ^ 53 := by rw [← pow_add]; congr 1; omega
  · rcases min_choice (52 - m.log2) (e + 1074).toNat with full | last
    · left
      calc 2 ^ 52 = 2 ^ m.log2 * 2 ^ (52 - m.log2) := by rw [← pow_add]; congr 1; omega
        _ ≤ m * 2 ^ room m e := by
          rw [room, full]
          exact Nat.mul_le_mul_right _ (Nat.log2_self_le pos.ne')
    · right
      rw [room, last]
      omega
  · rw [zpow_sub₀ two_ne_zero, zpow_natCast]
    push_cast
    field_simp

/-- A natural of at most 53 bits is not rounded. -/
theorem value_toFloat (pos : 0 < n) (small : n < 2 ^ 53) :
    value n.toUInt64.toFloat.toModel.unpack = ((n : ℝ) : EReal) := by
  obtain ⟨canonical, same⟩ := canonical_room pos small (e := 0) (by norm_num)
  have some : 0 < n * 2 ^ room n 0 := by positivity
  have counted : (n.toUInt64.toNat : ℝ) = n := by
    rw [Nat.toUInt64, UInt64.toNat_ofNat']
    congr 1
    omega
  rw [zpow_zero, mul_one] at same
  have rounded := rounds_normalize (n.toUInt64.toNat : ℤ) 0 .positive
  rw [zpow_zero, mul_one, Int.cast_natCast, counted, ← same] at rounded
  have valid : Valid (.finite .positive _ _ some) := .finite .positive some canonical (by omega)
  have unique := rounded.unique (rounds_self valid UnpackedFloat.noConfusion)
  rw [clamp_of_valid valid] at unique
  show value (Float.Model.pack (.normalize .binary64 n.toUInt64.toNat 0 .positive)).unpack = _
  rw [rounded.unpack_pack, unique, value, signed, same]

/-- A power is a quotient of two, one of which is one. -/
theorem zpow_eq_div {base : ℝ} (some : base ≠ 0) (e : ℤ) :
    base ^ e = base ^ e.toNat / base ^ (-e).toNat := by
  have split : e = (e.toNat : ℤ) - ((-e).toNat : ℤ) := by omega
  conv_lhs => rw [split, zpow_sub₀ some, zpow_natCast, zpow_natCast]

/-- Whether a double is a natural. -/
def isExactly (x : Float) (n : ℕ) : Bool :=
  match x.toModel.unpack with
  | .finite .positive m e _ => m * 2 ^ e.toNat == n * 2 ^ (-e).toNat
  | _ => false

/-- Naturals tell it without fractions. -/
theorem value_of_isExactly {y : Float} (h : isExactly y n = true) :
    value y.toModel.unpack = ((n : ℝ) : EReal) := by
  unfold isExactly at h
  split at h
  · next m e pos unpacked =>
    have same : (m : ℝ) * 2 ^ e.toNat = n * 2 ^ (-e).toNat := by exact_mod_cast eq_of_beq h
    rw [unpacked, value, signed, zpow_eq_div two_ne_zero e, ← mul_div_assoc, same,
      mul_div_cancel_right₀ _ (by positivity)]
  · cases h

/-- The powers of ten that are kept are not rounded. -/
theorem value_power : ∀ k : Fin 23,
    value Float.exactlyRepresentablePowersOfTen[k].toModel.unpack =
      ((10 ^ k.val : ℕ) : ℝ) := by
  have checked : ∀ k : Fin 23,
      isExactly Float.exactlyRepresentablePowersOfTen[k] (10 ^ k.val) = true := by decide +kernel
  exact fun k => value_of_isExactly (checked k)

section Counts

variable {a b : Float.Model} {k : ℕ} (pos : 0 < n) (pos' : 0 < k)
  (ha : value a.unpack = ((n : ℝ) : EReal)) (hb : value b.unpack = ((k : ℝ) : EReal))
include pos pos' ha hb

/-- The product of two counts that are not rounded. -/
theorem rounds_mul_counts :
    Rounds ((n * k : ℝ) : EReal) (a.unpack.mul .binary64 b.unpack) := by
  obtain ⟨m, e, some, unpacked, canonical, same⟩ := finite_of_value (Nat.cast_pos.mpr pos) ha
  obtain ⟨m', e', some', unpacked', canonical', same'⟩ := finite_of_value (Nat.cast_pos.mpr pos') hb
  have rounded := rounds_exact .positive (canonical.fine_mul some some' canonical')
  have split : ((m * m' : ℕ) : ℝ) * (2 : ℝ) ^ (e + e') = n * k := by
    rw [Nat.cast_mul, zpow_add₀ two_ne_zero, mul_mul_mul_comm, same, same']
  rw [unpacked, unpacked']
  rw [split] at rounded
  exact rounded

/-- The quotient of two counts that are not rounded. -/
theorem rounds_div_counts :
    Rounds ((n / k : ℝ) : EReal) (a.unpack.div .binary64 b.unpack) := by
  obtain ⟨m, e, some, unpacked, -, same⟩ := finite_of_value (Nat.cast_pos.mpr pos) ha
  obtain ⟨m', e', some', unpacked', -, same'⟩ := finite_of_value (Nat.cast_pos.mpr pos') hb
  have rounded := @rounds_quotient m m' e e' .positive some some'
  rw [same, same'] at rounded
  rw [unpacked, unpacked']
  exact rounded

end Counts

/-- The sign and the magnitude of an exponent tell it. -/
theorem signed_natAbs (e : ℤ) :
    (if decide (e < 0) = true then Int.negOfNat e.natAbs else Int.ofNat e.natAbs) = e := by
  split
  · next h =>
    have negative := of_decide_eq_true h
    rw [Int.negOfNat_eq, Int.ofNat_eq_natCast]
    omega
  · next h =>
    have nonneg : ¬ e < 0 := by simpa using h
    rw [Int.ofNat_eq_natCast]
    omega

/-- The double of a decimal is the nearest one, if the power of ten is not so great
or small that none is formed. -/
theorem unpack_ofScientific (pos : 0 < n) (least : -(2 ^ 11 + n.log2 : ℤ) ≤ e) (most : e ≤ 2 ^ 11) :
    ∃ u, Rounds ((n * (10 : ℝ) ^ e : ℝ) : EReal) u ∧
      (Float.ofScientific n (e < 0) e.natAbs).toModel.unpack = clamp u := by
  unfold Float.ofScientific
  by_cases short : n < 2 ^ 53 ∧ e.natAbs ≤ 22
  · have counted := value_toFloat pos short.1
    have power := value_power ⟨e.natAbs, by omega⟩
    have some : 0 < 10 ^ e.natAbs := by positivity
    rw [dif_pos short]
    by_cases negative : e < 0
    · rw [if_pos (decide_eq_true negative)]
      have rounded := rounds_div_counts pos some counted power
      have same : (n / (10 ^ e.natAbs : ℕ) : ℝ) = n * (10 : ℝ) ^ e := by
        have flip : e = -(e.natAbs : ℤ) := by omega
        rw [flip, zpow_neg, zpow_natCast, Int.natAbs_neg, Int.natAbs_natCast, Nat.cast_pow,
          Nat.cast_ofNat, div_eq_mul_inv]
      rw [same] at rounded
      exact ⟨_, rounded, rounded.unpack_pack⟩
    · rw [if_neg (by simpa using negative)]
      have rounded := rounds_mul_counts pos some counted power
      have same : (n * (10 ^ e.natAbs : ℕ) : ℝ) = n * (10 : ℝ) ^ e := by
        have keep : e = (e.natAbs : ℤ) := by omega
        rw [keep, zpow_natCast, Int.natAbs_natCast, Nat.cast_pow, Nat.cast_ofNat]
      rw [same] at rounded
      exact ⟨_, rounded, rounded.unpack_pack⟩
  · have rounded := rounds_ofScientific pos least most
    rw [dif_neg short]
    dsimp only
    rw [signed_natAbs]
    exact ⟨_, rounded, rounded.unpack_pack⟩

/-- The double of a decimal that is not beyond the midpoints around a double is that one. -/
theorem unpack_of_closest {power : ℤ} (closest : Closest m e (n * (10 : ℝ) ^ power))
    (canonical : Canonical m e) (greatest : e ≤ 971) (pos : 0 < m) (some : 0 < n)
    (least : -(2 ^ 11 + n.log2 : ℤ) ≤ power) (most : power ≤ 2 ^ 11) :
    (Float.ofScientific n (power < 0) power.natAbs).toModel.unpack =
      .finite .positive m e pos := by
  obtain ⟨u, rounded, same⟩ := unpack_ofScientific some least most
  have valid : Valid (.finite .positive m e pos) := .finite .positive pos canonical greatest
  have unique := rounded.unique (closest.rounds canonical pos)
  rw [clamp_of_valid valid] at unique
  exact unpack_eq_of_value canonical pos ((congrArg value same).trans unique)

/-- The double of a count is the nearest one, too. -/
theorem unpack_ofNat (pos : 0 < n) :
    ∃ u, Rounds ((n : ℝ) : EReal) u ∧ (Float.ofNat n).toModel.unpack = clamp u := by
  have rounded := @unpack_ofScientific n 0 pos (by omega) (by norm_num)
  rw [zpow_zero, mul_one] at rounded
  exact rounded

/-- The double of a count is near to it. -/
theorem near_ofNat (pos : 0 < n) : Near ((n : ℝ) : EReal) (Float.ofNat n).toModel := by
  obtain ⟨u, rounded, same⟩ := unpack_ofNat pos
  exact .inr ⟨u, rounded, congrArg value same⟩

end HorizonUct.Binary64
