import HorizonUct.Proofs.Binary64.Packing
import HorizonUct.Proofs.Tree.Favourite

/-!
# Doubles in the order of their values

A double that is a number has a value among the reals or is infinite. Since
mantissas are full, but at the least exponent, comparing exponents first and
mantissas next is comparing values. A double that a greater value is rounded to
is not smaller, even if it is too great for the format.
-/

namespace HorizonUct.Binary64

open Float.Model (UnpackedFloat)
open Float.Model.UnpackedFloat (Sign)

/-- A value with a sign. -/
def signed {R : Type} [Neg R] : Sign → R → R
  | .negative, x => -x
  | .positive, x => x

/-- The value of a double. What is not a number has none, and is taken for nought. -/
noncomputable def value : UnpackedFloat → EReal
  | .infinity sign => signed sign ⊤
  | .finite sign m e _ => ((signed sign (m * (2 : ℝ) ^ e) : ℝ) : EReal)
  | .zero _ | .notANumber => 0

/-- A canonical mantissa with its exponent comes before another one if its
exponent is smaller, or if it is itself with the same exponent. -/
theorem Canonical.lt {m m' : ℕ} {e e' : ℤ} (canonical : Canonical m e)
    (canonical' : Canonical m' e') (h : e < e' ∨ e = e' ∧ m < m') :
    m * (2 : ℝ) ^ e < m' * (2 : ℝ) ^ e' := by
  have unit : (0 : ℝ) < (2 : ℝ) ^ e := zpow_pos two_pos e
  rcases h with less | ⟨rfl, less⟩
  · have high : (m : ℝ) < 2 ^ 53 := by exact_mod_cast canonical.small
    have full : 2 ^ 52 ≤ m' := canonical'.full.resolve_right (by have := canonical.least; omega)
    have low : (2 : ℝ) ^ 52 ≤ m' := by exact_mod_cast full
    have unit' : (0 : ℝ) < (2 : ℝ) ^ e' := zpow_pos two_pos e'
    calc m * (2 : ℝ) ^ e < 2 ^ 53 * (2 : ℝ) ^ e := mul_lt_mul_of_pos_right high unit
      _ ≤ 2 ^ 52 * (2 : ℝ) ^ e' := fits_le_fills less
      _ ≤ m' * (2 : ℝ) ^ e' := mul_le_mul_of_nonneg_right low unit'.le
  · exact mul_lt_mul_of_pos_right (by exact_mod_cast less) unit

/-- A finite double has a positive magnitude. -/
theorem size_pos {m : ℕ} (pos : 0 < m) (e : ℤ) : 0 < m * (2 : ℝ) ^ e :=
  mul_pos (Nat.cast_pos.mpr pos) (zpow_pos two_pos e)

section Comparison

open Scalar (rank)

variable {x y : UnpackedFloat}

/-- A double that comes before another one has a smaller value. -/
theorem value_lt_of_rank (hx : Valid x) (hy : Valid y) (h : rank x < rank y) :
    value x < value y := by
  rcases hx with _ | (_ | _) | _ | @⟨_ | _, m, e, pos, canonical, -⟩ <;>
    rcases hy with _ | (_ | _) | _ | @⟨_ | _, m', e', pos', canonical', -⟩ <;>
    simp only [rank, Prod.Lex.toLex_lt_toLex] at h <;>
    norm_num at h
  -- what is left comes earlier, and its values are compared as reals
  all_goals simp only [value, signed, EReal.neg_top, ← EReal.coe_zero, EReal.coe_lt_coe_iff,
    EReal.bot_lt_coe, EReal.coe_lt_top, bot_lt_top]
  case undefined.finite.positive | zero.finite.positive => exact size_pos pos' e'
  case finite.negative.undefined | finite.negative.zero => exact neg_neg_of_pos (size_pos pos e)
  case finite.negative.finite.negative =>
    exact neg_lt_neg (canonical'.lt canonical (h.imp_right fun same => ⟨same.1.symm, same.2⟩))
  case finite.negative.finite.positive =>
    exact (neg_neg_of_pos (size_pos pos e)).trans (size_pos pos' e')
  case finite.positive.finite.positive => exact canonical.lt canonical' h

/-- Doubles in the same place have the same value. -/
theorem value_eq_of_rank (hx : Valid x) (hy : Valid y) (h : rank x = rank y) :
    value x = value y := by
  rcases hx with _ | (_ | _) | _ | @⟨_ | _, m, e, pos, -, -⟩ <;>
    rcases hy with _ | (_ | _) | _ | @⟨_ | _, m', e', pos', -, -⟩ <;>
    simp [rank] at h <;>
    simp [value, h]

/-- Of two numbers the one with the smaller value is less. -/
theorem lt_iff_value (hx : Valid x) (hy : Valid y) :
    x.lt y = true ↔ x ≠ .notANumber ∧ y ≠ .notANumber ∧ value x < value y := by
  by_cases number : x = .notANumber ∨ y = .notANumber
  · have never : x.lt y = false := by
      rcases number with rfl | rfl
      · rfl
      · cases x <;> rfl
    rw [never]
    tauto
  · obtain ⟨nx, ny⟩ := not_or.mp number
    rw [Scalar.lt_iff_rank nx ny]
    refine ⟨fun h => ⟨nx, ny, value_lt_of_rank hx hy h⟩, fun ⟨_, _, h⟩ => ?_⟩
    by_contra least
    rcases lt_or_eq_of_le (not_lt.mp least) with more | same
    · exact lt_asymm h (value_lt_of_rank hy hx more)
    · exact h.ne (value_eq_of_rank hx hy same.symm)

end Comparison

variable {u u' : UnpackedFloat} {v w : EReal} {x y : ℝ} {r : ℕ} {t : ℤ}

/-- What is left of a magnitude in the range of the format. -/
noncomputable def capped (x : ℝ) : EReal := if x < (2 : ℝ) ^ (1024 : ℤ) then x else ⊤

/-- Of a greater magnitude not less is left. -/
theorem capped_mono (h : x ≤ y) : capped x ≤ capped y := by
  unfold capped
  split
  · split
    · exact EReal.coe_le_coe_iff.mpr h
    · exact le_top
  · next beyond => rw [if_neg fun less => beyond (h.trans_lt less)]

/-- Nothing is left of nought. -/
theorem capped_zero : capped 0 = 0 := by
  have some : (0 : ℝ) < (2 : ℝ) ^ (1024 : ℤ) := zpow_pos two_pos _
  rw [capped, if_pos some, EReal.coe_zero]

/-- A canonical quantity is in range exactly if its exponent is. -/
theorem Canonical.lt_iff {m : ℕ} {e : ℤ} (canonical : Canonical m e) :
    m * (2 : ℝ) ^ e < (2 : ℝ) ^ (1024 : ℤ) ↔ e ≤ 971 := by
  have unit : (0 : ℝ) < (2 : ℝ) ^ e := zpow_pos two_pos e
  constructor
  · intro less
    by_contra beyond
    have full : 2 ^ 52 ≤ m := canonical.full.resolve_right (by omega)
    have low : (2 : ℝ) ^ 52 ≤ m := by exact_mod_cast full
    have reached : (2 : ℝ) ^ (1024 : ℤ) ≤ m * (2 : ℝ) ^ e :=
      calc (2 : ℝ) ^ (1024 : ℤ) ≤ (2 : ℝ) ^ (52 + e) :=
            zpow_le_zpow_right₀ one_le_two (by omega)
        _ = 2 ^ 52 * (2 : ℝ) ^ e := by rw [zpow_add₀ two_ne_zero]; norm_cast
        _ ≤ m * (2 : ℝ) ^ e := mul_le_mul_of_nonneg_right low unit.le
    exact less.not_ge reached
  · intro within
    have high : (m : ℝ) < 2 ^ 53 := by exact_mod_cast canonical.small
    calc m * (2 : ℝ) ^ e < 2 ^ 53 * (2 : ℝ) ^ e := mul_lt_mul_of_pos_right high unit
      _ = (2 : ℝ) ^ (53 + e) := by rw [zpow_add₀ two_ne_zero]; norm_cast
      _ ≤ (2 : ℝ) ^ (1024 : ℤ) := zpow_le_zpow_right₀ one_le_two (by omega)

/-- What is settled is zero, or canonical with a value that the carry does not change. -/
theorem settled_cases (sign : Sign) (placed : Placed x r t) :
    r = 0 ∧ settled sign r t = .zero sign ∨ ∃ m e pos, Canonical m e ∧
      m * (2 : ℝ) ^ e = r * (2 : ℝ) ^ t ∧ settled sign r t = .finite sign m e pos := by
  by_cases none : r = 0
  · exact .inl ⟨none, dif_pos none⟩
  · right
    have least := placed.least
    by_cases carry : r = 2 ^ 53
    · refine ⟨2 ^ 52, t + 1, by norm_num, ⟨by norm_num, by omega, .inl le_rfl⟩, ?_, ?_⟩
      · rw [carry, zpow_add_one₀ two_ne_zero]
        push_cast
        ring
      · rw [settled, dif_neg none, if_pos carry]
    · have small : r < 2 ^ 53 := lt_of_le_of_ne placed.le carry
      have full : 2 ^ 52 ≤ r ∨ t = -1074 := (eq_or_ne t (-1074)).symm.imp_left placed.full
      exact ⟨r, t, Nat.pos_of_ne_zero none, ⟨small, least, full⟩, rfl,
        by rw [settled, dif_neg none, if_neg carry]⟩

/-- The value that a settled quantity has within the range of the format. -/
theorem value_clamp_settled (sign : Sign) (placed : Placed x r t) :
    value (clamp (settled sign r t)) = signed sign (capped (r * (2 : ℝ) ^ t)) := by
  rcases settled_cases sign placed with ⟨rfl, zero⟩ | ⟨m, e, pos, canonical, same, finite⟩
  · rw [zero, Nat.cast_zero, zero_mul, capped_zero]
    cases sign <;> simp [clamp, value, signed]
  · rw [finite, ← same, clamp, capped]
    by_cases within : e ≤ 971
    · rw [if_pos within, if_pos (canonical.lt_iff.mpr within)]
      cases sign <;> simp only [value, signed, EReal.coe_neg]
    · rw [if_neg within, if_neg (mt canonical.lt_iff.mp within)]
      rfl

/-- What is settled is put into 64 bits without loss, if it is in range. -/
theorem unpack_pack_settled (sign : Sign) (placed : Placed x r t) :
    (Float.Model.pack (settled sign r t)).unpack = clamp (settled sign r t) := by
  rcases settled_cases sign placed with ⟨-, zero⟩ | ⟨m, e, pos, canonical, -, finite⟩
  · rw [zero]
    exact unpack_pack_special fun _ _ _ _ => UnpackedFloat.noConfusion
  · rw [finite]
    exact unpack_pack_finite sign pos canonical

/-- A value at the precision of the format, its exponent not limited from above. -/
inductive Rounds : EReal → UnpackedFloat → Prop where
  /-- An infinite value stays as it is. -/
  | infinite (sign : Sign) : Rounds (signed sign ⊤) (.infinity sign)
  /-- A finite one goes to the nearest mantissa. -/
  | finite (sign : Sign) {x : ℝ} {r : ℕ} {t : ℤ} (nonneg : 0 ≤ x) (placed : Placed x r t) :
      Rounds ((signed sign x : ℝ) : EReal) (settled sign r t)

/-- Nought is placed at the least exponent. -/
theorem placed_zero : Placed 0 0 (-1074) := by
  refine ⟨le_rfl, by positivity, .inl rfl, ?_⟩
  rw [zero_div]
  exact_mod_cast nearest_self 0

/-- A magnitude is rounded to one that is not negative. -/
theorem capped_nonneg (r : ℕ) (t : ℤ) : 0 ≤ capped (r * (2 : ℝ) ^ t) := by
  unfold capped
  split
  · exact EReal.coe_nonneg.mpr (by positivity)
  · exact le_top

/-- A magnitude that is at most nought is rounded to nought. -/
theorem capped_of_nonpos (placed : Placed x r t) (h : x ≤ 0) : capped (r * (2 : ℝ) ^ t) = 0 := by
  have least := capped_mono (placed.mono placed_zero h)
  rw [Nat.cast_zero, zero_mul, capped_zero] at least
  exact le_antisymm least (capped_nonneg r t)

/-- A greater finite value is not rounded to less. -/
theorem signed_capped_mono {s : ℕ} {t' : ℤ} (sign sign' : Sign) (hx : 0 ≤ x) (hy : 0 ≤ y)
    (placed : Placed x r t) (placed' : Placed y s t') (h : signed sign x ≤ signed sign' y) :
    signed sign (capped (r * (2 : ℝ) ^ t)) ≤ signed sign' (capped (s * (2 : ℝ) ^ t')) := by
  rcases sign with _ | _ <;> rcases sign' with _ | _ <;> simp only [signed] at h ⊢
  · exact EReal.neg_le_neg_iff.mpr (capped_mono (placed'.mono placed (neg_le_neg_iff.mp h)))
  · exact (EReal.neg_le_zero.mpr (capped_nonneg r t)).trans (capped_nonneg s t')
  · -- only nought is at most its opposite
    rw [capped_of_nonpos placed (by linarith), capped_of_nonpos placed' (by linarith), neg_zero]
  · exact capped_mono (placed.mono placed' h)

/-- A greater value is not rounded to less. -/
theorem Rounds.mono (hv : Rounds v u) (hw : Rounds w u') (h : v ≤ w) :
    value (clamp u) ≤ value (clamp u') := by
  rcases hv with (_ | _) | ⟨sign, nonneg, placed⟩ <;>
    rcases hw with (_ | _) | ⟨sign', nonneg', placed'⟩
  case finite.finite =>
    rw [value_clamp_settled sign placed, value_clamp_settled sign' placed']
    exact signed_capped_mono sign sign' nonneg nonneg' placed placed' (EReal.coe_le_coe_iff.mp h)
  all_goals simp [signed, clamp, value] at h ⊢

/-- What a value is rounded to has one value. -/
theorem Rounds.unique (h : Rounds v u) (h' : Rounds v u') : value (clamp u) = value (clamp u') :=
  le_antisymm (h.mono h' le_rfl) (h'.mono h le_rfl)

/-- What a value is rounded to is put into 64 bits without loss, if it is in range. -/
theorem Rounds.unpack_pack (h : Rounds v u) : (Float.Model.pack u).unpack = clamp u := by
  cases h with
  | infinite sign => exact unpack_pack_special fun _ _ _ _ => UnpackedFloat.noConfusion
  | finite sign _ placed => exact unpack_pack_settled sign placed

/-- What a value is rounded to is a number. -/
theorem Rounds.number (h : Rounds v u) : clamp u ≠ .notANumber := by
  cases h with
  | infinite sign => exact UnpackedFloat.noConfusion
  | finite sign nonneg placed =>
    rcases settled_cases sign placed with ⟨-, zero⟩ | ⟨m, e, pos, -, -, finite⟩
    · rw [zero]
      exact UnpackedFloat.noConfusion
    · rw [finite, clamp]
      split <;> exact UnpackedFloat.noConfusion

/-- What a value is rounded to is a number, even if it is out of range. -/
theorem Rounds.ne_undefined (h : Rounds v u) : u ≠ .notANumber :=
  fun undefined => h.number (congrArg clamp undefined)

/-- A double is exact in its own precision. -/
theorem rounds_self (valid : Valid u) (number : u ≠ .notANumber) : Rounds (value u) u := by
  cases valid with
  | undefined => exact (number rfl).elim
  | infinity sign => exact .infinite sign
  | zero sign =>
    have rounded := Rounds.finite sign le_rfl placed_zero
    cases sign <;> simpa [signed, value, settled] using rounded
  | @finite sign m e pos canonical _ =>
    have unit : (0 : ℝ) < (2 : ℝ) ^ e := zpow_pos two_pos e
    have small : (m : ℝ) < 2 ^ 53 := by exact_mod_cast canonical.small
    have fills : e = -1074 ∨ 2 ^ 52 * (2 : ℝ) ^ e ≤ m * (2 : ℝ) ^ e := by
      refine canonical.full.symm.imp_right fun full => ?_
      exact mul_le_mul_of_nonneg_right (by exact_mod_cast full) unit.le
    have placed : Placed (m * (2 : ℝ) ^ e) m e := by
      refine ⟨canonical.least, mul_lt_mul_of_pos_right small unit, fills, ?_⟩
      rw [mul_div_cancel_right₀ _ unit.ne']
      exact nearest_self m
    have same : settled sign m e = .finite sign m e pos := by
      rw [settled, dif_neg pos.ne', if_neg canonical.small.ne]
    have rounded := Rounds.finite sign (size_pos pos e).le placed
    rwa [same] at rounded

/-- A double is put back into 64 bits without loss. -/
theorem unpack_pack_of_valid (valid : Valid u) (number : u ≠ .notANumber) :
    (Float.Model.pack u).unpack = u := by
  rw [(rounds_self valid number).unpack_pack, clamp_of_valid valid]

/-- A double is as near to a value as the format allows, or it is not a number. -/
def Near (v : EReal) (z : Float.Model) : Prop :=
  z.unpack = .notANumber ∨ ∃ u, Rounds v u ∧ value z.unpack = value (clamp u)

/-- What a value is rounded to is near to it as a double. -/
theorem near_pack (h : u = .notANumber ∨ Rounds v u) : Near v (.pack u) := by
  rcases h with rfl | rounds
  · exact .inl rfl
  · exact .inr ⟨u, rounds, congrArg value rounds.unpack_pack⟩

/-- A number that is the result of rounding is one as a double, too. -/
theorem number_pack (h : u = .notANumber ∨ Rounds v u) (number : u ≠ .notANumber) :
    (Float.Model.pack u).unpack ≠ .notANumber := by
  have rounded := h.resolve_left number
  rw [rounded.unpack_pack]
  exact rounded.number

variable {a b : Float.Model}

/-- A number near to a value is not below one that is near to a smaller value. -/
theorem Near.le (ha : Near v a) (hb : Near w b) (na : a.unpack ≠ .notANumber)
    (nb : b.unpack ≠ .notANumber) (h : w ≤ v) : value b.unpack ≤ value a.unpack := by
  obtain ⟨u, hu, same⟩ := ha.resolve_left na
  obtain ⟨u', hu', same'⟩ := hb.resolve_left nb
  rw [same, same']
  exact hu'.mono hu h

/-- Every double is near to its own value. -/
theorem near_self (a : Float.Model) : Near (value a.unpack) a := by
  by_cases number : a.unpack = .notANumber
  · exact .inl number
  · have valid := valid_unpack a
    exact .inr ⟨a.unpack, rounds_self valid number, by rw [clamp_of_valid valid]⟩

end HorizonUct.Binary64
