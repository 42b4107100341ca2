import HorizonUct.Decimal.Binary

/-!
# Decimal texts with a fixed number of places

The exact binary value is rounded once, to the nearest multiple of the last
place, and a half goes to the even neighbour. The sign is that of the value,
also when all its digits vanish.
-/

namespace HorizonUct.Decimal

/-- The quotient rounded to the nearest natural, a half to the even one. -/
def roundHalfEven (numerator denominator : Nat) : Nat :=
  let quotient := numerator / denominator
  match compare (2 * (numerator % denominator)) denominator with
  | .lt => quotient
  | .gt => quotient + 1
  | .eq => if quotient % 2 == 0 then quotient else quotient + 1

/-- The value in units of the last of the given places. -/
def Magnitude.inUnits (x : Magnitude) (places : Nat) : Nat :=
  roundHalfEven (x.significand * Nat.pow 2 x.exponent.toNat * Nat.pow 10 places)
    (Nat.pow 2 (-x.exponent).toNat)

/-- Set the point of a count of units. -/
def placePoint (units places : Nat) : String :=
  let text := (Nat.repr units).toList
  let padded := List.replicate (places + 1 - text.length) '0' ++ text
  let whole := padded.length - places
  if places == 0 then String.ofList padded
  else String.ofList (padded.take whole ++ '.' :: padded.drop whole)

/-- The text of a double with the given number of places. -/
def fixed (places : Nat) (x : Float) : String :=
  match Double.ofFloat x with
  | .undefined => "NaN"
  | .infinite negative => if negative then "-inf" else "inf"
  | .finite negative size =>
    (if negative then "-" else "") ++ placePoint (size.inUnits places) places

example : fixed 2 0.125 = "0.12" := by decide +kernel
example : fixed 3 (-0.0001) = "-0.000" := by decide +kernel
example : fixed 6 6.915 = "6.915000" := by decide +kernel

end HorizonUct.Decimal
