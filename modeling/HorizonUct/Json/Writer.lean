import HorizonUct.Decimal.Layout

/-!
# Writing JSON text

A draft is what is to be written. It is written compactly, or with one line a
value and two blanks of indentation a level. Strings escape the quote, the
backslash and the control characters; everything else stands as it is.
-/

namespace HorizonUct.Json

/-- A JSON text to be. -/
inductive Draft where
  /-- A literal: null, a truth value or a number. -/
  | literal (text : String)
  /-- A string. -/
  | text (value : String)
  /-- A list of values. -/
  | list (items : List Draft)
  /-- Names with their values, in order. -/
  | record (members : List (String × Draft))
deriving Inhabited

namespace Draft

/-- The value null. -/
def null : Draft := .literal "null"

/-- A truth value. -/
def bool (value : Bool) : Draft := .literal (if value then "true" else "false")

/-- A natural number. -/
def natural (n : Nat) : Draft := .literal (Nat.repr n)

/-- A double, null when it is not finite. -/
def double (x : Float) : Draft := .literal (Decimal.json.render x)

/-- A value that may be absent. -/
def optional {β : Type} (draft : β → Draft) : Option β → Draft
  | none => null
  | some value => draft value

end Draft

/-- The hexadecimal digit of a small natural. -/
def hexDigit (n : Nat) : Char := (Nat.toDigits 16 n).headD '0'

/-- A character as it stands in a string. -/
def escape (c : Char) : List Char :=
  if c == '"' then ['\\', '"']
  else if c == '\\' then ['\\', '\\']
  else if c == '\x08' then ['\\', 'b']
  else if c == '\t' then ['\\', 't']
  else if c == '\n' then ['\\', 'n']
  else if c == '\x0c' then ['\\', 'f']
  else if c == '\r' then ['\\', 'r']
  else if c.toNat < 0x20 then
    ['\\', 'u', '0', '0', hexDigit (c.toNat / 16), hexDigit (c.toNat % 16)]
  else [c]

/-- A string with its quotes. -/
def quote (text : String) : String := "\"" ++ String.ofList (text.toList.flatMap escape) ++ "\""

mutual

/-- The text of a draft without any blanks. -/
def Draft.compact : Draft → String
  | .literal text => text
  | .text value => quote value
  | .list items => "[" ++ ",".intercalate (compactItems items) ++ "]"
  | .record members => "\x7b" ++ ",".intercalate (compactMembers members) ++ "\x7d"

/-- The compact texts of a list of drafts. -/
def compactItems : List Draft → List String
  | [] => []
  | item :: rest => item.compact :: compactItems rest

/-- The compact texts of the members of a record. -/
def compactMembers : List (String × Draft) → List String
  | [] => []
  | (name, value) :: rest => (quote name ++ ":" ++ value.compact) :: compactMembers rest

end

/-- Put items one a line between brackets; without items the brackets touch. -/
def bracket (opening closing : String) (margin : String) (items : List String) : String :=
  if items.isEmpty then opening ++ closing
  else
    let inner := "\n" ++ margin ++ "  "
    opening ++ inner ++ ("," ++ inner).intercalate items ++ "\n" ++ margin ++ closing

mutual

/-- The indented text of a draft that starts behind a margin. -/
def Draft.indented (margin : String) : Draft → String
  | .literal text => text
  | .text value => quote value
  | .list items => bracket "[" "]" margin (indentedItems (margin ++ "  ") items)
  | .record members => bracket "\x7b" "\x7d" margin (indentedMembers (margin ++ "  ") members)

/-- The indented texts of a list of drafts. -/
def indentedItems (margin : String) : List Draft → List String
  | [] => []
  | item :: rest => item.indented margin :: indentedItems margin rest

/-- The indented texts of the members of a record. -/
def indentedMembers (margin : String) : List (String × Draft) → List String
  | [] => []
  | (name, value) :: rest =>
    (quote name ++ ": " ++ value.indented margin) :: indentedMembers margin rest

end

/-- The text of a draft with one line a value. -/
def Draft.pretty (draft : Draft) : String := draft.indented ""

end HorizonUct.Json
