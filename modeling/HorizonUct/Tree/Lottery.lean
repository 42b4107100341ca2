import HorizonUct.Draws
import HorizonUct.Journal
import HorizonUct.Tree.Basic

/-!
# Which outcome chance picks

The children of an action divide the unit interval among them, each with a
piece as long as its probability, and a draw falls into one of the pieces.
Probabilities that make no distribution are refused, and then no draw is
taken. A tolerance is allowed for, so the pieces may end before one; a draw
behind the last piece belongs to it, and that is entered in the journal.
-/

namespace HorizonUct

/-- The first entry at which the running sum of the weights is not below a
draw, or the whole sum when there is none. -/
def firstReaching {α : Type} [Scalar α] (draw : α) (running : α) : List (Nat × α) → Except α Nat
  | [] => .error running
  | (child, weight) :: rest =>
    let running := running + weight
    if Scalar.le draw running then .ok child else firstReaching draw running rest

/-- Whether probabilities make a distribution: none is negative or undefined,
and their sum is within the tolerance of one. -/
def isDistribution {α : Type} [Scalar α] (tolerance : α) (probabilities : List α) : Bool :=
  probabilities.all (Scalar.le Scalar.zero) &&
    !Scalar.lt tolerance (Scalar.abs (Scalar.total probabilities - Scalar.one))

/-- A drawn outcome. -/
structure Drawn (υ α : Type) where
  /-- The child that was drawn. -/
  child : Nat
  /-- The source after the draw. -/
  source : υ
  /-- What is to be entered in the journal, if anything. -/
  event : Option (Event α)

/-- Draw a child of a node; one without a probability counts as impossible. -/
def Tree.draw {υ S α : Type} [Scalar α] [DrawSource υ α] (tree : Tree S α) (id : Nat)
    (tolerance : α) (source : υ) : Except (Failure α) (Drawn υ α) := do
  let children ← tree.children id
  let weights := children.map fun (id, child) => (id, child.reach.getD Scalar.zero)
  let probabilities := weights.map (·.2)
  match weights.getLast? with
  | some (last, _) =>
    if isDistribution tolerance probabilities then
      let (draw, source) := DrawSource.next source
      match firstReaching draw Scalar.zero weights with
      | .ok child => return ⟨child, source, none⟩
      | .error sum => return ⟨last, source, some (.drawBeyond id draw sum)⟩
    else throw (.notADistribution id (Scalar.total probabilities))
  | none => throw (.notADistribution id (Scalar.total probabilities))

end HorizonUct
