import HorizonUct.Failure

/-!
# Sources of uniform draws

A source yields one draw at a time and goes on from where it stands. Replayed
draws repeat a given list for ever and know how many have been taken.
-/

namespace HorizonUct

/-- A source of draws from the unit interval. -/
class DrawSource (υ α : Type) where
  /-- The next draw, and the source after it. -/
  next : υ → α × υ

/-- The next draws of a source, in order, and the source after them. -/
def DrawSource.take {υ α : Type} [DrawSource υ α] : Nat → υ → List α × υ
  | 0, source => ([], source)
  | count + 1, source =>
    let (draw, source) := next source
    let (draws, source) := take count source
    (draw :: draws, source)

/-- Either of two sources. -/
instance {υ φ α : Type} [DrawSource υ α] [DrawSource φ α] : DrawSource (υ ⊕ φ) α where
  next
    | .inl source => let (draw, source) := DrawSource.next source; (draw, .inl source)
    | .inr source => let (draw, source) := DrawSource.next source; (draw, .inr source)

/-- Given draws, repeated for ever. -/
structure Replay (α : Type) where
  /-- The draws. -/
  values : Array α
  /-- How many draws have been taken. -/
  taken : Nat
  /-- There is a draw to repeat. -/
  size_pos : 0 < values.size

namespace Replay

variable {α : Type}

/-- Repeat the draws of a list, which must not be empty. -/
def ofList (values : List α) : Except (Failure α) (Replay α) :=
  if h : 0 < values.toArray.size then .ok ⟨values.toArray, 0, h⟩ else .error (.setting .noDraws)

instance : DrawSource (Replay α) α where
  next source :=
    have _ : source.taken % source.values.size < source.values.size := Nat.mod_lt _ source.size_pos
    (source.values[source.taken % source.values.size], { source with taken := source.taken + 1 })

/-- A draw is counted and changes nothing else. -/
theorem next_taken (source : Replay α) :
    (DrawSource.next (α := α) source).2.taken = source.taken + 1 := rfl

end Replay

end HorizonUct
