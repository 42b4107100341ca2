import HorizonUct.Decimal.Shortest

/-!
# Shortest decimal texts

A layout says which exponents are written positionally, how a whole number
ends, how an exponent is written and what stands for the values that are not
finite. Three layouts are in use: positional text for messages and tables,
scientific text for the configuration line, and the numbers of JSON documents.
-/

namespace HorizonUct.Decimal

/-- The decisions of a shortest decimal text. -/
structure Layout where
  /-- Whether a value with this exponent of the leading digit is written positionally. -/
  positional : Int → Bool
  /-- What follows the digits of a positional whole number. -/
  wholeEnding : String
  /-- What stands before an exponent that is not negative. -/
  exponentPlus : String
  /-- Where equally near digits go. -/
  tie : Tie
  /-- The text of a value that is not a number. -/
  undefined : String
  /-- The text of positive infinity. -/
  infinity : String
  /-- The text of negative infinity. -/
  minusInfinity : String

namespace Digits

/-- The exponent of the leading digit. -/
def leading (d : Digits) : Int := d.exponent + (Nat.repr d.digits).length - 1

/-- Positional text: the point stands behind, inside or in front of the digits. -/
def positional (d : Digits) (wholeEnding : String) : String :=
  let text := (Nat.repr d.digits).toList
  if 0 ≤ d.exponent then
    String.ofList (text ++ List.replicate d.exponent.toNat '0') ++ wholeEnding
  else if 0 ≤ d.leading then
    let whole := d.leading.toNat + 1
    String.ofList (text.take whole ++ '.' :: text.drop whole)
  else
    String.ofList ('0' :: '.' :: List.replicate (-d.leading - 1).toNat '0' ++ text)

/-- Scientific text: one digit, the others behind a point, and the exponent. -/
def scientific (d : Digits) (exponentPlus : String) : String :=
  let mantissa := match (Nat.repr d.digits).toList with
    | first :: second :: rest => String.ofList (first :: '.' :: second :: rest)
    | short => String.ofList short
  let sign := if d.leading < 0 then "-" else exponentPlus
  mantissa ++ "e" ++ sign ++ Nat.repr d.leading.natAbs

end Digits

/-- The text of a double in a layout. -/
def Layout.render (layout : Layout) (x : Float) : String :=
  match Double.ofFloat x with
  | .undefined => layout.undefined
  | .infinite negative => if negative then layout.minusInfinity else layout.infinity
  | .finite negative size =>
    let d := size.shortest layout.tie
    let text :=
      if layout.positional d.leading then d.positional layout.wholeEnding
      else d.scientific layout.exponentPlus
    if negative then "-" ++ text else text

/-- Numbers in messages, labels and tables: always positional, a whole number
without a point, equally near digits upwards. -/
def plain : Layout where
  positional _ := true
  wholeEnding := ""
  exponentPlus := ""
  tie := .up
  undefined := "NaN"
  infinity := "inf"
  minusInfinity := "-inf"

/-- The tolerance in the configuration line: always scientific. -/
def scientific : Layout where
  positional _ := false
  wholeEnding := ""
  exponentPlus := ""
  tie := .up
  undefined := "NaN"
  infinity := "inf"
  minusInfinity := "-inf"

/-- Numbers of JSON documents: positional from five places behind the point up
to sixteen digits before it, with a point always; what is not finite is null. -/
def json : Layout where
  positional e := -5 ≤ e && e ≤ 15
  wholeEnding := ".0"
  exponentPlus := "+"
  tie := .toEven
  undefined := "null"
  infinity := "null"
  minusInfinity := "null"

example : plain.render 100000000000000000 = "100000000000000000" := by decide +kernel
example : plain.render 0.0000001 = "0.0000001" := by decide +kernel
example : plain.render (-0.0) = "-0" := by decide +kernel
example : scientific.render 123456 = "1.23456e5" := by decide +kernel
example : scientific.render 0.00001 = "1e-5" := by decide +kernel
example : json.render 1e16 = "1e+16" := by decide +kernel
example : json.render 0.00001 = "0.00001" := by decide +kernel
example : json.render 5e-324 = "5e-324" := by decide +kernel

end HorizonUct.Decimal
