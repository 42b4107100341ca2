import HorizonUct.Decimal.Binary

/-!
# The fewest digits that read back

Every decimal between the two midpoints around a double reads back as that
double. Among those decimals the shortest is taken, and of two equally short
ones the nearer; a tie goes where the caller says. Grids of powers of ten are
tried from the coarsest downwards, and on each grid only the two neighbours of
the value can qualify.
-/

namespace HorizonUct.Decimal

/-- Where a choice between two equally near decimals goes. -/
inductive Tie where
  /-- To the even last digit. -/
  | toEven
  /-- To the larger magnitude. -/
  | up
deriving DecidableEq, Repr

/-- A decimal, `digits · 10 ^ exponent`. -/
structure Digits where
  /-- The digits read as one number. -/
  digits : Nat
  /-- The power of ten of the last digit. -/
  exponent : Int
deriving DecidableEq, Repr

namespace Magnitude

/-- The qualifying neighbour of a value on the grid of multiples of `10 ^ power`,
if one of the two lies between the midpoints around the value. Everything is
scaled by four times a common factor, so both midpoints are integers; they
belong to the interval exactly if the significand is even. -/
def onGrid (x : Magnitude) (tie : Tie) (power : Int) : Option Digits :=
  let up := Nat.pow 2 (x.exponent - 2).toNat * Nat.pow 10 (-power).toNat
  let unit := Nat.pow 2 (2 - x.exponent).toNat * Nat.pow 10 power.toNat
  let value := 4 * x.significand * up
  let least := (4 * x.significand - if x.closerBelow then 1 else 2) * up
  let most := (4 * x.significand + 2) * up
  let ends := x.significand % 2 == 0
  let below := value / unit
  let above := below + 1
  let belowReads := if ends then least ≤ below * unit else least < below * unit
  let aboveReads := if ends then above * unit ≤ most else above * unit < most
  let pick (d : Nat) : Option Digits := some ⟨d, power⟩
  if belowReads then
    if aboveReads then
      match compare (2 * value) ((below + above) * unit), tie with
      | .lt, _ => pick below
      | .gt, _ => pick above
      | .eq, .up => pick above
      | .eq, .toEven => pick (if below % 2 == 0 then below else above)
    else pick below
  else if aboveReads then pick above
  else none

/-- A power of ten above the value: its binary length times log 2, rounded up. -/
def ceilingPower (x : Magnitude) : Int :=
  (((Nat.log2 x.significand : Int) + 1 + x.exponent) * 30103).fdiv 100000 + 2

/-- The exact decimal expansion, which always reads back. -/
def exact (x : Magnitude) : Digits :=
  if x.exponent < 0 then ⟨x.significand * Nat.pow 5 (-x.exponent).toNat, x.exponent⟩
  else ⟨x.significand * Nat.pow 2 x.exponent.toNat, 0⟩

/-- The shortest decimal that reads back as the value. Seventeen digits always
do, and the first of the grids lies at most three above the leading digit. -/
def shortest (x : Magnitude) (tie : Tie) : Digits :=
  if x.significand == 0 then ⟨0, 0⟩
  else
    ((List.range 24).findSome? fun (i : Nat) => x.onGrid tie (x.ceilingPower - i)).getD x.exact

end Magnitude

end HorizonUct.Decimal
