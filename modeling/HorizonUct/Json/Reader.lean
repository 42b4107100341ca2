import HorizonUct.Json.Value

/-!
# Reading JSON text

The grammar is the strict one: blanks are space, tab, line feed and carriage
return; a string holds no raw control character; nothing may follow the value.
Each step consumes text, so a recursion as deep as the text is long always
suffices.
-/

namespace HorizonUct.Json

open Decimal (Numeral)

/-- Whether a character may stand between tokens. -/
def isGap (c : Char) : Bool := c == ' ' || c == '\n' || c == '\t' || c == '\r'

/-- The text from its first token on. -/
def skipGap (text : List Char) : List Char := text.dropWhile isGap

/-- A piece of a string: a character, or a code unit given by an escape. -/
inductive Piece where
  /-- A character as it stands. -/
  | char (c : Char)
  /-- An escaped unit of 16 bits. -/
  | unit (code : Nat)
deriving DecidableEq, Repr

/-- The value of a hexadecimal digit. -/
def hexDigit? (c : Char) : Option Nat :=
  if '0' ≤ c && c ≤ '9' then some (c.toNat - '0'.toNat)
  else if 'a' ≤ c && c ≤ 'f' then some (c.toNat - 'a'.toNat + 10)
  else if 'A' ≤ c && c ≤ 'F' then some (c.toNat - 'A'.toNat + 10)
  else none

/-- The character that a one-letter escape stands for. -/
def escaped? : Char → Option Char
  | '"' => some '"'
  | '\\' => some '\\'
  | '/' => some '/'
  | 'b' => some '\x08'
  | 'f' => some '\x0c'
  | 'n' => some '\n'
  | 'r' => some '\r'
  | 't' => some '\t'
  | _ => none

/-- The pieces of a string up to its closing quote, last piece first, and the
text behind the quote. -/
def pieces (found : List Piece) : List Char → Option (List Piece × List Char)
  | [] => none
  | '"' :: rest => some (found, rest)
  | '\\' :: 'u' :: a :: b :: c :: d :: rest =>
    match hexDigit? a, hexDigit? b, hexDigit? c, hexDigit? d with
    | some a, some b, some c, some d =>
      pieces (.unit (((a * 16 + b) * 16 + c) * 16 + d) :: found) rest
    | _, _, _, _ => none
  | '\\' :: c :: rest =>
    match escaped? c with
    | some e => pieces (.char e :: found) rest
    | none => none
  | c :: rest => if c.toNat < 0x20 || c == '\\' then none else pieces (.char c :: found) rest

/-- The text that pieces spell, given last piece first: two units that make a
surrogate pair are one character, any other surrogate spells nothing. -/
def spell (later : List Char) : List Piece → Option (List Char)
  | [] => some later
  | .char c :: earlier => spell (c :: later) earlier
  | .unit low :: .unit high :: earlier =>
    if 0xDC00 ≤ low && low ≤ 0xDFFF then
      if 0xD800 ≤ high && high ≤ 0xDBFF then
        spell (Char.ofNat (0x10000 + (high - 0xD800) * 0x400 + (low - 0xDC00)) :: later) earlier
      else none
    else if 0xD800 ≤ low && low ≤ 0xDBFF then none
    else spell (Char.ofNat low :: later) (.unit high :: earlier)
  | .unit code :: earlier =>
    if 0xD800 ≤ code && code ≤ 0xDFFF then none else spell (Char.ofNat code :: later) earlier

/-- A string behind its opening quote. -/
def stringBody (text : List Char) : Option (Option String × List Char) :=
  (pieces [] text).map fun (found, rest) => ((spell [] found).map String.ofList, rest)

/-- Whether a character can belong to a number. -/
def isNumeric (c : Char) : Bool :=
  c.isDigit || c == '-' || c == '+' || c == '.' || c == 'e' || c == 'E'

mutual

/-- A value at the start of the text, and the text behind it. -/
def value (fuel : Nat) (text : List Char) : Option (Json × List Char) :=
  match fuel with
  | 0 => none
  | fuel + 1 =>
    match skipGap text with
    | 'n' :: 'u' :: 'l' :: 'l' :: rest => some (.null, rest)
    | 't' :: 'r' :: 'u' :: 'e' :: rest => some (.bool true, rest)
    | 'f' :: 'a' :: 'l' :: 's' :: 'e' :: rest => some (.bool false, rest)
    | '"' :: rest => (stringBody rest).map fun (text, rest) => (.string text, rest)
    | '[' :: rest =>
      match skipGap rest with
      | ']' :: rest => some (.array [], rest)
      | rest => items fuel [] rest
    | '\x7b' :: rest =>
      match skipGap rest with
      | '\x7d' :: rest => some (.object [], rest)
      | rest => members fuel [] rest
    | text =>
      (Numeral.ofDocument? (text.takeWhile isNumeric)).map fun numeral =>
        (.number numeral, text.dropWhile isNumeric)

/-- The items of an array from the next one on, those before given last first. -/
def items (fuel : Nat) (before : List Json) (text : List Char) : Option (Json × List Char) :=
  match fuel with
  | 0 => none
  | fuel + 1 =>
    match value fuel text with
    | none => none
    | some (item, rest) =>
      match skipGap rest with
      | ',' :: rest => items fuel (item :: before) rest
      | ']' :: rest => some (.array (item :: before).reverse, rest)
      | _ => none

/-- The members of an object from the next one on, those before given last first. -/
def members (fuel : Nat) (before : List (Option String × Json)) (text : List Char) :
    Option (Json × List Char) :=
  match fuel with
  | 0 => none
  | fuel + 1 =>
    match skipGap text with
    | '"' :: rest =>
      match stringBody rest with
      | none => none
      | some (key, rest) =>
        match skipGap rest with
        | ':' :: rest =>
          match value fuel rest with
          | none => none
          | some (item, rest) =>
            match skipGap rest with
            | ',' :: rest => members fuel ((key, item) :: before) rest
            | '\x7d' :: rest => some (.object ((key, item) :: before).reverse, rest)
            | _ => none
        | _ => none
    | _ => none

end

/-- Read a whole text as one JSON value. -/
def read? (text : String) : Option Json :=
  let chars := text.toList
  match value (chars.length + 1) chars with
  | some (j, rest) => if (skipGap rest).isEmpty then some j else none
  | none => none

end HorizonUct.Json
