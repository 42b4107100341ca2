/-!
# Floating-point values as exact numbers

A finite double is a natural significand times a power of two. Decimal texts
are chosen by exact arithmetic on that pair, so nothing here computes with
floating point.
-/

namespace HorizonUct.Decimal

/-- A finite magnitude, `significand · 2 ^ exponent`. -/
structure Magnitude where
  /-- The integer significand. -/
  significand : Nat
  /-- The power of two. -/
  exponent : Int
  /-- Whether the next value below is half as far away as the next one above. -/
  closerBelow : Bool
deriving DecidableEq, Repr

/-- What the bits of a double stand for. -/
inductive Double where
  /-- Not a number. -/
  | undefined
  /-- Beyond every finite value, on the side of the sign. -/
  | infinite (negative : Bool)
  /-- A finite value with its sign; nought keeps a sign as well. -/
  | finite (negative : Bool) (size : Magnitude)
deriving DecidableEq, Repr

/-- Split the bits of a double into sign, power and fraction. An exponent field
of nought marks the values below the least normal one, which share its power. -/
def Double.ofBits (bits : UInt64) : Double :=
  let negative := bits >>> 63 == 1
  let field := ((bits >>> 52) &&& 0x7FF).toNat
  let fraction := (bits &&& 0xFFFFFFFFFFFFF).toNat
  if field == 0x7FF then
    if fraction == 0 then .infinite negative else .undefined
  else if field == 0 then
    .finite negative ⟨fraction, -1074, false⟩
  else
    .finite negative ⟨Nat.pow 2 52 + fraction, (field : Int) - 1075, fraction == 0 && field > 1⟩

/-- The exact reading of a double. -/
def Double.ofFloat (x : Float) : Double := .ofBits x.toBits

end HorizonUct.Decimal
