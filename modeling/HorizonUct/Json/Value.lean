import HorizonUct.Decimal.Numeral

/-!
# JSON values as they are read

A document is kept close to its text: the members of an object stay in order
with repetitions, a number keeps its digits, and a string whose escapes spell
no text (an unpaired surrogate) is held as such, since it only matters where
its text is asked for.
-/

namespace HorizonUct

open Decimal (Numeral)

/-- A JSON value. A string or a key without a text is `none`. -/
inductive Json where
  /-- The value `null`. -/
  | null
  /-- A truth value. -/
  | bool (value : Bool)
  /-- A number, digit by digit. -/
  | number (numeral : Numeral)
  /-- A string. -/
  | string (text : Option String)
  /-- A list of values. -/
  | array (items : List Json)
  /-- Keys with their values, in the order of the document. -/
  | object (members : List (Option String × Json))
deriving Inhabited

namespace Json

/-- The text of a string. -/
def text? : Json → Option String
  | .string text => text
  | _ => none

/-- The double that a number stands for in a document. -/
def double? : Json → Option Float
  | .number n => n.stepwise?
  | _ => none

/-- The natural below `2 ^ 64` that a number spells. -/
def natural? : Json → Option Nat
  | .number n => n.natural?.filter (· < Nat.pow 2 64)
  | _ => none

/-- The items of an array, each read in the same way. -/
def list? {β : Type} (item : Json → Option β) : Json → Option (List β)
  | .array items => items.mapM item
  | _ => none

/-- Null, or a value read in the given way. -/
def optional? {β : Type} (value : Json → Option β) : Json → Option (Option β)
  | .null => some none
  | j => (value j).map some

/-- The first value that an object holds under a key. -/
def member? (key : String) : Json → Option Json
  | .object members => (members.find? fun (k, _) => k == some key).map (·.2)
  | _ => none

end Json

end HorizonUct
