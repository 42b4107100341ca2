import HorizonUct.Text.Blank

/-!
# Which log lines to show

A filter is a list of levels separated by commas, each for everything or for
the parts of a program under a name: `info`, `search=debug`, `search`. A text
to look for may follow a slash. A filter with a part that is none of these is
refused as a whole.
-/

namespace HorizonUct.CommandLine

/-- The names of the levels, from silent to everything. -/
def levelNames : List String := ["off", "error", "warn", "info", "debug", "trace"]

/-- The rank of a level, in any case. -/
def level? (text : String) : Option Nat :=
  levelNames.idxOf? (String.ofList (text.toList.map Char.toLower))

/-- One part of a filter. -/
structure LogDirective where
  /-- The name that the part is for, everything when absent. -/
  name : Option String
  /-- The rank up to which lines are shown. -/
  level : Nat
deriving DecidableEq, Repr

/-- Whether white space stands inside a text. -/
def hasBlank (text : String) : Bool := text.toList.any Text.isBlank

/-- Read one part of a filter. -/
def LogDirective.ofText? (text : String) : Option LogDirective :=
  match (text.splitOn "=").map Text.trim with
  | [single] =>
    if hasBlank single then none
    else match level? single with
      | some level => some ⟨none, level⟩
      | none => some ⟨some single, levelNames.length - 1⟩
  | [name, ""] => if hasBlank name then none else some ⟨some name, levelNames.length - 1⟩
  | [name, level] =>
    if hasBlank name || hasBlank level then none
    else (level? level).map fun level => ⟨some name, level⟩
  | _ => none

/-- Read a filter. Parts without any text are passed over. -/
def logFilter? (text : String) : Option (List LogDirective) :=
  match text.splitOn "/" with
  | levels :: rest =>
    if rest.length > 1 then none
    else
      let parts := (levels.splitOn ",").map Text.trim
      (parts.filter (!·.isEmpty)).mapM LogDirective.ofText?
  | [] => none

/-- The rank up to which a filter shows the lines of a part of a program: that
of the longest name that the part's name starts with. -/
def shownLevel (filter : List LogDirective) (target : String) : Nat :=
  let matching := filter.filter fun directive => (directive.name.getD "").isPrefixOf target
  let longest :=
    matching.foldl (fun length directive => max length (directive.name.getD "").length) 0
  (matching.filter fun directive => (directive.name.getD "").length == longest).getLast?.elim 0
    (·.level)

end HorizonUct.CommandLine
