/-!
# Quantities

Rewards, probabilities and scores belong to one type with the operations
below. A search computes with doubles; over an exact ordered field the same
definitions describe a search that never rounds. The class asks for no law,
so a statement that needs one names the carrier or takes the law as a
hypothesis.
-/

namespace HorizonUct

/-- The operations of a search on rewards, probabilities and scores. -/
class Scalar (α : Type) extends Add α, Sub α, Mul α, Div α, Neg α where
  /-- The value of a count. -/
  ofNat : Nat → α
  /-- The comparison `x ≤ y`, false when either side is not a number. -/
  le : α → α → Bool
  /-- The comparison `x < y`, false when either side is not a number. -/
  lt : α → α → Bool
  /-- The magnitude of a value. -/
  abs : α → α
  /-- The natural logarithm. -/
  ln : α → α
  /-- The square root. -/
  sqrt : α → α
  /-- Whether a value is neither infinite nor undefined. -/
  isFinite : α → Bool

namespace Scalar

variable {α : Type} [Scalar α]

/-- The value nought. -/
def zero : α := ofNat 0

/-- The value one. -/
def one : α := ofNat 1

/-- Whether a value is not a number: it is not even comparable with itself. -/
def isUndefined (x : α) : Bool := !le x x

/-- Whether a value exceeds every finite one. -/
def isUnbounded (x : α) : Bool := !isFinite x && lt zero x

/-- The sum of a list from left to right. It starts from negative nought, the
only start that leaves every summand unchanged, so the empty sum is negative
nought too. -/
def total (xs : List α) : α := xs.foldl (· + ·) (-zero)

/-- Binary floating point of 64 bits with a given logarithm. Every other
operation is the one that the format prescribes; how far a logarithm is
rounded is left open there. -/
@[reducible]
def binary64 (ln : Float → Float) : Scalar Float where
  ofNat := Float.ofNat
  le x y := decide (x ≤ y)
  lt x y := decide (x < y)
  abs := Float.abs
  ln := ln
  sqrt := Float.sqrt
  isFinite := Float.isFinite

/-- Doubles with the logarithm of the machine. -/
instance : Scalar Float := binary64 Float.log

end Scalar

end HorizonUct
