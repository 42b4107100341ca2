import HorizonUct.Decimal.Layout
import HorizonUct.Decimal.Numeral
import HorizonUct.Proofs.Decimal.Bits
import HorizonUct.Proofs.Decimal.Shortest

/-!
# Every double reads back from its text

A positional text is digits with a sign and a point. The numeral that is read
from it stands for the shortest decimal, which is closest to the double it was
made for, and the nearest double to it is that one. Nought, infinity and what is
not a number have texts of their own.
-/

namespace HorizonUct.Decimal

open Float.Model (UnpackedFloat)
open Float.Model.UnpackedFloat (Sign)
open Binary64 (Closest canonical_of_unpack unpack_of_closest unpack_pack_of_valid)

variable {m : ℕ} {e : ℤ} {x : Float}

/-- The value of a decimal has as many places as its leading digit says. -/
theorem bounds_of_repr {n : ℕ} (pos : 0 < n) (power : ℤ) :
    (10 : ℝ) ^ (power + (Nat.repr n).length - 1) ≤ n * (10 : ℝ) ^ power ∧
      n * (10 : ℝ) ^ power < (10 : ℝ) ^ (power + (Nat.repr n).length) := by
  have ten : (10 : ℝ) ≠ 0 := by norm_num
  have unit : (0 : ℝ) < (10 : ℝ) ^ power := zpow_pos (by norm_num) power
  have most : n < 10 ^ (Nat.repr n).length :=
    (Nat.length_repr_le_iff Nat.length_repr_pos).mp le_rfl
  have least : 10 ^ ((Nat.repr n).length - 1) ≤ n := by
    rcases Nat.eq_zero_or_pos ((Nat.repr n).length - 1) with one | more
    · rw [one, pow_zero]
      exact pos
    · by_contra less
      have := (Nat.length_repr_le_iff more).mpr (not_le.mp less)
      omega
  have some : 0 < (Nat.repr n).length := Nat.length_repr_pos
  constructor
  · calc (10 : ℝ) ^ (power + (Nat.repr n).length - 1)
        = (10 : ℝ) ^ (((Nat.repr n).length - 1 : ℕ) + power) := by congr 1; omega
      _ = (10 ^ ((Nat.repr n).length - 1) : ℕ) * (10 : ℝ) ^ power := by
        rw [zpow_add₀ ten, zpow_natCast, Nat.cast_pow, Nat.cast_ofNat]
      _ ≤ n * (10 : ℝ) ^ power := mul_le_mul_of_nonneg_right (by exact_mod_cast least) unit.le
  · calc n * (10 : ℝ) ^ power < (10 ^ (Nat.repr n).length : ℕ) * (10 : ℝ) ^ power :=
          mul_lt_mul_of_pos_right (by exact_mod_cast most) unit
      _ = (10 : ℝ) ^ (power + (Nat.repr n).length) := by
        rw [add_comm, zpow_add₀ ten, zpow_natCast, Nat.cast_pow, Nat.cast_ofNat]

/-- A natural has no more decimal digits than binary ones. -/
theorem length_repr_le_log2 (n : ℕ) : (Nat.repr n).length ≤ n.log2 + 1 := by
  rw [Nat.length_repr_le_iff (Nat.succ_pos _)]
  exact Nat.lt_log2_self.trans_le (Nat.pow_le_pow_left (by decide) _)

/-- The magnitude that a numeral stands for. -/
noncomputable def Numeral.size (n : Numeral) : ℝ :=
  Digits.value ⟨ofDigits (n.whole ++ n.fraction.getD []),
    n.exponent.getD 0 - (n.fraction.getD []).length⟩

/-- The opposite of a double has the other sign. -/
theorem unpack_neg_finite {pos : 0 < m} (h : x.toModel.unpack = .finite .positive m e pos) :
    (-x).toModel.unpack = .finite .negative m e pos := by
  obtain ⟨canonical, greatest⟩ := canonical_of_unpack h
  show (Float.Model.pack x.toModel.unpack.neg).unpack = _
  rw [h]
  exact unpack_pack_of_valid (.finite .negative pos canonical greatest) UnpackedFloat.noConfusion

/-- A numeral with the sign of a double whose magnitude is not beyond the midpoints
around it reads as that double. -/
theorem Numeral.nearest_eq {n : Numeral} {sign : Sign} {pos : 0 < m}
    (unpacked : x.toModel.unpack = .finite sign m e pos) (closest : Closest m e n.size)
    (same : n.negative = isMinus sign) : n.nearest = x := by
  obtain ⟨canonical, greatest⟩ := canonical_of_unpack unpacked
  obtain ⟨least, most⟩ := closest.bounds canonical greatest pos
  unfold size Digits.value at closest least most
  unfold nearest
  extract_lets behind digits power leading
  have ten : (1 : ℝ) < 10 := by norm_num
  have some : 0 < digits := by
    refine Nat.pos_of_ne_zero fun none => ?_
    have nought : (digits : ℝ) * (10 : ℝ) ^ power = 0 := by rw [none, Nat.cast_zero, zero_mul]
    exact absurd (least.trans_eq nought) (not_le.mpr (zpow_pos (by norm_num) _))
  obtain ⟨first, beyond⟩ := bounds_of_repr some power
  have high : leading - 1 < 400 := (zpow_lt_zpow_iff_right₀ ten).mp (first.trans_lt most)
  have low : -400 < leading := (zpow_lt_zpow_iff_right₀ ten).mp (least.trans_lt beyond)
  have length := length_repr_le_log2 digits
  have formed : -(2 ^ 11 + digits.log2 : ℤ) ≤ power ∧ power ≤ 2 ^ 11 := by
    have split : leading = power + (Nat.repr digits).length := rfl
    omega
  have read := unpack_of_closest closest canonical greatest pos some formed.1 formed.2
  have large : (digits == 0 || decide (leading < -400)) = false := by
    rw [Bool.or_eq_false_iff]
    exact ⟨beq_eq_false_iff_ne.mpr some.ne', decide_eq_false (by omega)⟩
  rw [large, if_neg Bool.false_ne_true, if_neg (by omega), signed, same]
  cases sign with
  | positive => exact eq_of_unpack (read.trans unpacked.symm)
  | negative => exact eq_of_unpack ((unpack_neg_finite read).trans unpacked.symm)

/-- The digits that characters stand for. -/
def digitValues (text : List Char) : List ℕ := text.map fun c => c.toNat - '0'.toNat

/-- A minus sign if there is one, digits, and perhaps a point and more digits behind it. -/
def spelled (negative : Bool) (whole : List Char) (behind? : Option (List Char)) : List Char :=
  (if negative then ['-'] else []) ++ whole ++ behind?.elim [] ('.' :: ·)

/-- Characters that all are digits. -/
def Digital (text : List Char) : Prop := ∀ c ∈ text, c.isDigit = true

section Spelling

variable {whole behind : List Char} {behind? : Option (List Char)} {negative : Bool}

/-- Digits are taken from a text as far as they go. -/
theorem leadingDigits_append_of_digital {rest : List Char} (digital : Digital whole)
    (stops : ∀ c, rest.head? = some c → c.isDigit = false) :
    leadingDigits (whole ++ rest) = (digitValues whole, rest) := by
  have none : rest.takeWhile Char.isDigit = [] := by
    cases rest with
    | nil => rfl
    | cons c rest => rw [List.takeWhile_cons, stops c rfl]; rfl
  have all : rest.dropWhile Char.isDigit = rest := by
    cases rest with
    | nil => rfl
    | cons c rest => rw [List.dropWhile_cons, stops c rfl]; rfl
  rw [leadingDigits, List.takeWhile_append_of_pos digital, List.dropWhile_append_of_pos digital,
    none, all, List.append_nil]
  rfl

/-- What is read behind the sign. -/
def unsigned (negative : Bool) (text : List Char) : Option Numeral :=
  let (whole, rest) := leadingDigits text
  let (fraction, rest) := leadingFraction rest
  if whole.isEmpty && (fraction.getD []).isEmpty then none
  else (finalExponent rest).map fun exponent => ⟨negative, whole, fraction, exponent⟩

/-- A text that begins with a digit has no sign. -/
theorem ofText?_of_digit {first : Char} (digit : first.isDigit = true) (more : List Char) :
    Numeral.ofText? (first :: more) = unsigned false (first :: more) := by
  unfold Numeral.ofText?
  split
  next negative rest h =>
    split at h
    · next h' =>
      rw [(List.cons.inj h').1] at digit
      cases digit
    · next h' =>
      rw [(List.cons.inj h').1] at digit
      cases digit
    · cases h
      rfl

/-- Behind digits stands a point with more digits, or nothing. -/
theorem head?_behind {c : Char} (h : (behind?.elim [] ('.' :: ·)).head? = some c) :
    c.isDigit = false := by
  cases behind? <;> cases h
  rfl

/-- A point and the digits behind it are read as such. -/
theorem leadingFraction_behind (digital' : Digital (behind?.getD [])) :
    leadingFraction (behind?.elim [] ('.' :: ·)) = (behind?.map digitValues, []) := by
  cases behind? with
  | none => rfl
  | some behind =>
    have read : leadingDigits (behind ++ []) = (digitValues behind, []) :=
      leadingDigits_append_of_digital digital' fun c h => nomatch h
    rw [List.append_nil] at read
    rw [Option.elim_some, leadingFraction, read]
    rfl

/-- Digits with a sign and a point are read as such. -/
theorem ofText?_spelled (digital : Digital whole) (some : whole ≠ [])
    (digital' : Digital (behind?.getD [])) :
    Numeral.ofText? (spelled negative whole behind?) =
      .some ⟨negative, digitValues whole, behind?.map digitValues, none⟩ := by
  have stripped : Numeral.ofText? (spelled negative whole behind?) =
      unsigned negative (whole ++ behind?.elim [] ('.' :: ·)) := by
    cases negative with
    | true => rfl
    | false =>
      obtain ⟨first, more, rfl⟩ := List.exists_cons_of_ne_nil some
      exact ofText?_of_digit (digital first List.mem_cons_self) _
  have full : (digitValues whole).isEmpty = false := by
    rw [digitValues, List.isEmpty_map, List.isEmpty_eq_false_iff]
    exact some
  rw [stripped, unsigned, leadingDigits_append_of_digital digital fun c h => head?_behind h]
  dsimp only
  rw [leadingFraction_behind digital', full]
  rfl

end Spelling

/-- The natural that digits spell is that of their characters. -/
theorem ofDigits_digitValues (text : List Char) :
    ofDigits (digitValues text) = Nat.ofDigitChars 10 text 0 :=
  List.foldl_map

/-- The characters of a natural are digits. -/
theorem digital_repr (n : ℕ) : Digital (Nat.repr n).toList := by
  intro c h
  rw [Nat.toList_repr] at h
  exact Nat.isDigit_of_mem_toDigits (by decide) (by decide) h

/-- Noughts are digits. -/
theorem digital_noughts (count : ℕ) : Digital (List.replicate count '0') := by
  intro c h
  rw [List.eq_of_mem_replicate h]
  rfl

/-- Digits behind digits are digits. -/
theorem Digital.append {first second : List Char} (h : Digital first) (h' : Digital second) :
    Digital (first ++ second) := by
  intro c hc
  exact (List.mem_append.mp hc).elim (h c) (h' c)

/-- Digits before and behind a point that stand for a decimal. -/
structure Spells (d : Digits) (whole : List Char) (behind? : Option (List Char)) : Prop where
  /-- Before the point stand digits. -/
  digital : Digital whole
  /-- There are some. -/
  some : whole ≠ []
  /-- Behind it stand digits, too. -/
  digital' : Digital (behind?.getD [])
  /-- Together they are the value of the decimal. -/
  value : Digits.value ⟨Nat.ofDigitChars 10 (whole ++ behind?.getD []) 0,
    -((behind?.getD []).length : ℤ)⟩ = d.value

section Positions

variable (d : Digits)

/-- The digits of a decimal are digits of its natural. -/
theorem ofDigitChars_repr (n : ℕ) : Nat.ofDigitChars 10 (Nat.repr n).toList 0 = n := by
  rw [Nat.toList_repr, Nat.ofDigitChars_ten_toDigits]

/-- Their number tells the exponent of the first of them. -/
theorem leading_eq : d.leading = d.exponent + (Nat.repr d.digits).toList.length - 1 := by
  rw [Digits.leading, String.length_toList]

/-- Noughts behind the digits make up for an exponent that is not negative. -/
theorem spells_whole (nonneg : 0 ≤ d.exponent) :
    Spells d ((Nat.repr d.digits).toList ++ List.replicate d.exponent.toNat '0') none := by
  refine ⟨(digital_repr _).append (digital_noughts _), by simp, digital_noughts 0, ?_⟩
  have power : d.exponent = (d.exponent.toNat : ℤ) := (Int.toNat_of_nonneg nonneg).symm
  rw [Option.getD_none, List.append_nil, Nat.ofDigitChars_append, ofDigitChars_repr,
    Nat.ofDigitChars_replicate_zero, Digits.value, Digits.value, power, zpow_natCast,
    Int.toNat_natCast]
  push_cast
  simp [mul_comm]

/-- A point inside the digits makes up for an exponent that is less than their number. -/
theorem spells_inside (negative : ¬ 0 ≤ d.exponent) (inside : 0 ≤ d.leading) :
    Spells d ((Nat.repr d.digits).toList.take (d.leading.toNat + 1))
      (some ((Nat.repr d.digits).toList.drop (d.leading.toNat + 1))) := by
  have digital := digital_repr d.digits
  refine ⟨fun c h => digital c (List.mem_of_mem_take h), ?_,
    fun c h => digital c (List.mem_of_mem_drop h), ?_⟩
  · simp
  · have length := leading_eq d
    have power : -(((Nat.repr d.digits).toList.drop (d.leading.toNat + 1)).length : ℤ) =
        d.exponent := by
      rw [List.length_drop]
      omega
    rw [Option.getD_some, List.take_append_drop, ofDigitChars_repr, power]

/-- Noughts behind a point in front of the digits make up for one that is not. -/
theorem spells_small (small : ¬ 0 ≤ d.leading) :
    Spells d ['0'] (some (List.replicate (-d.leading - 1).toNat '0' ++
      (Nat.repr d.digits).toList)) := by
  refine ⟨digital_noughts 1, List.cons_ne_nil _ _,
    (digital_noughts _).append (digital_repr _), ?_⟩
  have length := leading_eq d
  have power : -((List.replicate (-d.leading - 1).toNat '0' ++
      (Nat.repr d.digits).toList).length : ℤ) = d.exponent := by
    rw [List.length_append, List.length_replicate]
    omega
  have same : Nat.ofDigitChars 10 (['0'] ++ (List.replicate (-d.leading - 1).toNat '0' ++
      (Nat.repr d.digits).toList)) 0 = d.digits := by
    rw [Nat.ofDigitChars_append, Nat.ofDigitChars_append]
    simp [Nat.ofDigitChars_cons]
  rw [Option.getD_some, same, power]

/-- A positional text spells its decimal. -/
theorem positional_spells : ∃ whole behind?, Spells d whole behind? ∧
    (d.positional "").toList = spelled false whole behind? := by
  unfold Digits.positional
  dsimp only
  split
  · next nonneg => exact ⟨_, none, spells_whole d nonneg, by simp [spelled]⟩
  · next negative =>
    split
    · next inside => exact ⟨_, some _, spells_inside d negative inside, by simp [spelled]⟩
    · next small => exact ⟨_, some _, spells_small d small, by simp [spelled]⟩

end Positions

/-- A numeral that spells a decimal stands for its value. -/
theorem Spells.size {d : Digits} {whole : List Char} {behind? : Option (List Char)}
    (spells : Spells d whole behind?) (negative : Bool) :
    Numeral.size ⟨negative, digitValues whole, behind?.map digitValues, none⟩ = d.value := by
  have behind : (behind?.map digitValues).getD [] = digitValues (behind?.getD []) := by
    cases behind? <;> rfl
  have joined : digitValues whole ++ digitValues (behind?.getD []) =
      digitValues (whole ++ behind?.getD []) := List.map_append.symm
  have length : (digitValues (behind?.getD [])).length = (behind?.getD []).length :=
    List.length_map _
  rw [Numeral.size, behind, joined, ofDigits_digitValues, length, Option.getD_none, zero_sub,
    spells.value]

/-- The text of a finite double. -/
theorem render_finite {negative : Bool} {size : Magnitude}
    (read : Double.ofFloat x = .finite negative size) : (plain.render x).toList =
      (if negative then ['-'] else []) ++ ((size.shortest .up).positional "").toList := by
  rw [Layout.render, read]
  cases negative
  · rfl
  · exact String.toList_append

/-- Digits with a sign and a point are made of these. -/
theorem isDigit_or_mem_of_spelled {whole : List Char} {behind? : Option (List Char)}
    {negative : Bool} {c : Char} (digital : Digital whole) (digital' : Digital (behind?.getD []))
    (h : c ∈ spelled negative whole behind?) : c.isDigit = true ∨ c ∈ ['-', '.'] := by
  rcases List.mem_append.mp h with before | after
  · rcases List.mem_append.mp before with sign | inside
    · cases negative with
      | false => cases sign
      | true => exact .inr (List.mem_cons.mpr (.inl (List.mem_singleton.mp sign)))
    · exact .inl (digital c inside)
  · cases behind? with
    | none => cases after
    | some behind =>
      rcases List.mem_cons.mp after with point | inside
      · exact .inr (List.mem_cons.mpr (.inr (List.mem_singleton.mpr point)))
      · exact .inl (digital' c inside)

/-- The characters of the text of a double are digits, a sign, a point and the
letters of the words for infinity and for what is not a number. -/
theorem isDigit_or_mem_of_render {c : Char} (h : c ∈ (plain.render x).toList) :
    c.isDigit = true ∨ c ∈ ['-', '.'] ++ ['i', 'n', 'f', 'N', 'a'] := by
  rw [List.mem_append, ← or_assoc]
  cases read : Double.ofFloat x with
  | undefined =>
    have text : (plain.render x).toList = ['N', 'a', 'N'] := by
      rw [Layout.render, read]
      rfl
    rw [text] at h
    have within : ['N', 'a', 'N'] ⊆ ['i', 'n', 'f', 'N', 'a'] := by simp
    exact .inr (within h)
  | infinite negative =>
    have text : (plain.render x).toList = (if negative then ['-'] else []) ++ ['i', 'n', 'f'] := by
      rw [Layout.render, read]
      cases negative <;> rfl
    rw [text] at h
    rcases List.mem_append.mp h with sign | inside
    · cases negative with
      | false => cases sign
      | true => exact .inl (.inr (List.mem_cons.mpr (.inl (List.mem_singleton.mp sign))))
    · exact .inr (List.mem_append_left ['N', 'a'] inside)
  | finite negative size =>
    obtain ⟨whole, behind?, spells, positional⟩ := positional_spells (size.shortest .up)
    have text : (plain.render x).toList = spelled negative whole behind? := by
      rw [render_finite read, positional]
      cases negative <;> rfl
    rw [text] at h
    exact .inl (isDigit_or_mem_of_spelled spells.digital spells.digital' h)

/-- A finite double that is not nought reads back. -/
theorem read?_render_finite {sign : Sign} {pos : 0 < m}
    (unpacked : x.toModel.unpack = .finite sign m e pos) : read? (plain.render x) = some x := by
  have read := ofFloat_eq x
  rw [unpacked, exactly] at read
  obtain ⟨whole, behind?, spells, positional⟩ :=
    positional_spells (Magnitude.shortest ⟨m, e, m == 2 ^ 52 && -1074 < e⟩ .up)
  have text : (plain.render x).toList = spelled (isMinus sign) whole behind? := by
    rw [render_finite read, positional]
    cases sign <;> rfl
  have closest : Closest m e (Magnitude.shortest ⟨m, e, m == 2 ^ 52 && -1074 < e⟩ .up).value := by
    refine @Magnitude.closest_shortest ⟨m, e, _⟩ .up pos fun full least => ?_
    exact (Bool.and_eq_true _ _).mpr ⟨beq_iff_eq.mpr full, decide_eq_true least⟩
  rw [read?, text, ofText?_spelled spells.digital spells.some spells.digital']
  rw [← spells.size (isMinus sign)] at closest
  exact congrArg some (Numeral.nearest_eq unpacked closest rfl)

/-- Every double reads back from its positional text, also one that is infinite or
not a number. -/
theorem read?_render (x : Float) : read? (plain.render x) = some x := by
  have alike {y : Float} (same : x = y) (reads : read? (plain.render y) = some y) :
      read? (plain.render x) = some x := same ▸ reads
  cases unpacked : x.toModel.unpack with
  | notANumber => exact alike (eq_of_unpack unpacked : x = 0 / 0) (by decide +kernel)
  | infinity sign =>
    cases sign with
    | positive => exact alike (eq_of_unpack unpacked : x = 1 / 0) (by decide +kernel)
    | negative => exact alike (eq_of_unpack unpacked : x = -(1 / 0)) (by decide +kernel)
  | zero sign =>
    cases sign with
    | positive => exact alike (eq_of_unpack unpacked : x = 0) (by decide +kernel)
    | negative => exact alike (eq_of_unpack unpacked : x = -0) (by decide +kernel)
  | finite sign m e pos => exact read?_render_finite unpacked

end HorizonUct.Decimal
