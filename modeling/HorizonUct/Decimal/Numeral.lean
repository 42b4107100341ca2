import HorizonUct.Scalar

/-!
# Reading decimal numerals

A numeral is a sign, digits before and behind a point, and an exponent. Two
grammars yield numerals: the lenient one of a single number given as text, and
the strict one of numbers inside a JSON document. Two readings give a double:
the nearest one, and the stepwise one of documents, which multiplies a
64-bit significand by a power of ten and so may miss the nearest by a step.
-/

namespace HorizonUct.Decimal

/-- A decimal numeral, digit by digit. -/
structure Numeral where
  /-- Whether a minus sign stands in front. -/
  negative : Bool
  /-- The digits in front of the point. -/
  whole : List Nat
  /-- The digits behind the point, if there is a point. -/
  fraction : Option (List Nat)
  /-- The power of ten, if one is written. -/
  exponent : Option Int
deriving DecidableEq, Repr

/-- The digits that a text starts with, and what follows them. -/
def leadingDigits (text : List Char) : List Nat × List Char :=
  ((text.takeWhile Char.isDigit).map fun c => c.toNat - '0'.toNat, text.dropWhile Char.isDigit)

/-- The natural that digits spell, most significant first. -/
def ofDigits (digits : List Nat) : Nat := digits.foldl (fun n d => 10 * n + d) 0

/-- The point and the digits behind it, if a point is next. -/
def leadingFraction : List Char → Option (List Nat) × List Char
  | '.' :: rest => let (digits, rest) := leadingDigits rest; (some digits, rest)
  | text => (none, text)

/-- The exponent that fills the rest of a text: nothing, or a mark, perhaps a
sign, and at least one digit. -/
def finalExponent : List Char → Option (Option Int)
  | [] => some none
  | mark :: rest =>
    if mark == 'e' || mark == 'E' then
      let (negative, rest) := match rest with
        | '-' :: rest => (true, rest)
        | '+' :: rest => (false, rest)
        | rest => (false, rest)
      match leadingDigits rest with
      | (first :: more, []) =>
        let size : Int := ofDigits (first :: more)
        some (some (if negative then -size else size))
      | _ => none
    else none

namespace Numeral

/-- The lenient grammar: either sign, and digits on at least one side of the point. -/
def ofText? (text : List Char) : Option Numeral :=
  let (negative, rest) := match text with
    | '-' :: rest => (true, rest)
    | '+' :: rest => (false, rest)
    | rest => (false, rest)
  let (whole, rest) := leadingDigits rest
  let (fraction, rest) := leadingFraction rest
  if whole.isEmpty && (fraction.getD []).isEmpty then none
  else (finalExponent rest).map fun exponent => ⟨negative, whole, fraction, exponent⟩

/-- The strict grammar: only a minus sign, no superfluous nought in front, and
digits on both sides of a point. -/
def ofDocument? (text : List Char) : Option Numeral :=
  let (negative, rest) := match text with
    | '-' :: rest => (true, rest)
    | rest => (false, rest)
  let (whole, rest) := leadingDigits rest
  let (fraction, rest) := leadingFraction rest
  if whole.isEmpty || (whole.head? == some 0 && whole.length > 1) || fraction == some [] then none
  else (finalExponent rest).map fun exponent => ⟨negative, whole, fraction, exponent⟩

/-- The natural that is written, if neither a sign, a point nor an exponent is. -/
def natural? (n : Numeral) : Option Nat :=
  if !n.negative && n.fraction.isNone && n.exponent.isNone then some (ofDigits n.whole) else none

/-- Give a magnitude the sign of the numeral. -/
def signed (n : Numeral) (size : Float) : Float := if n.negative then -size else size

/-- The nearest double. Powers of ten beyond the range of doubles are decided
by the place of the leading digit, before any large power is formed. -/
def nearest (n : Numeral) : Float :=
  let behind := n.fraction.getD []
  let digits := ofDigits (n.whole ++ behind)
  let power := n.exponent.getD 0 - behind.length
  let leading := power + (Nat.repr digits).length
  n.signed <|
    if digits == 0 || leading < -400 then 0
    else if leading > 400 then 1 / 0
    else Float.ofScientific digits (power < 0) power.natAbs

/-- The greatest significand that fits into 64 bits. -/
def significandLimit : Nat := Nat.pow 2 64 - 1

/-- The significand of the whole digits and the power of ten of the digits that
no longer fit: the first digit that would pass the limit and all after it are
counted instead of kept. -/
def wholeSignificand : List Nat → Nat → Nat × Int
  | [], kept => (kept, 0)
  | d :: rest, kept =>
    if 10 * kept + d ≤ significandLimit then wholeSignificand rest (10 * kept + d)
    else (kept, rest.length + 1)

/-- Take in the digits behind the point as long as they fit; the others are dropped. -/
def fractionSignificand : List Nat → Nat → Int → Nat × Int
  | [], kept, power => (kept, power)
  | d :: rest, kept, power =>
    if 10 * kept + d ≤ significandLimit then fractionSignificand rest (10 * kept + d) (power - 1)
    else (kept, power)

/-- A magnitude times a power of ten, one rounded operation for every power up
to 308. Passing the greatest double is refused; two steps down reach nought
from every 64-bit significand, so the third is never needed. -/
def scaleByTen (steps : Nat) (size : Float) (power : Int) : Option Float :=
  if power.natAbs ≤ 308 then
    let ten := Float.ofScientific 1 false power.natAbs
    if 0 ≤ power then
      let scaled := size * ten
      if scaled.isFinite then some scaled else none
    else some (size / ten)
  else if size == 0 then some size
  else if 0 < power then none
  else match steps with
    | 0 => some 0
    | steps + 1 => scaleByTen steps (size / 1e308) (power + 308)

/-- The stepwise reading of a number in a document, none beyond the range of doubles. -/
def stepwise? (n : Numeral) : Option Float :=
  let (kept, power) := wholeSignificand n.whole 0
  let (kept, power) := fractionSignificand (n.fraction.getD []) kept power
  (scaleByTen 3 (Float.ofNat kept) (power + n.exponent.getD 0)).map n.signed

end Numeral

/-- Read a double from a text of its own: a numeral of the lenient grammar, or
the name of infinity or of the undefined value, in any case and with any sign. -/
def read? (text : String) : Option Float :=
  match Numeral.ofText? text.toList with
  | some n => some n.nearest
  | none =>
    let (negative, rest) := match text.toList with
      | '-' :: rest => (true, rest)
      | '+' :: rest => (false, rest)
      | rest => (false, rest)
    let name := String.ofList (rest.map Char.toLower)
    if name == "inf" || name == "infinity" then some (if negative then -(1 / 0) else 1 / 0)
    else if name == "nan" then some (0 / 0)
    else none

/-- Read a natural below `2 ^ 64` from a text of its own: digits, perhaps after a plus sign. -/
def readNatural? (text : String) : Option Nat :=
  let rest := match text.toList with
    | '+' :: rest => rest
    | rest => rest
  match leadingDigits rest with
  | (first :: more, []) =>
    let n := ofDigits (first :: more)
    if n < Nat.pow 2 64 then some n else none
  | _ => none

end HorizonUct.Decimal
