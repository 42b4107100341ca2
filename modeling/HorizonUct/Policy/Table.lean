import HorizonUct.Json.Writer
import HorizonUct.Policy.Chain

/-!
# Chains as texts

A transition table has one line with the numbers of situations and of
transitions, and then one line per transition: where it comes from, where it
leads and how probable it is. A chain is also written as a JSON document.
-/

namespace HorizonUct.Chain

open Json (Draft)

variable {S α : Type}

/-- The lines of a transition table, each a list of words. -/
def tableWords (number : α → String) (chain : Chain S α) : List (List String) :=
  [Nat.repr chain.size, Nat.repr chain.transitionCount] ::
    chain.transitions.map fun (source, target, probability) =>
      [Nat.repr source, Nat.repr target, number probability]

/-- A transition table: words separated by a blank, every line ended by a line feed. -/
def tableText (number : α → String) (chain : Chain S α) : String :=
  String.join ((chain.tableWords number).map fun words => " ".intercalate words ++ "\n")

/-- The transition table of a chain with shortest decimals. -/
def table (chain : Chain S Float) : String := chain.tableText Decimal.plain.render

/-- A situation as it is written. -/
def situationDraft (situation : Situation Nat) : Draft :=
  .record [("state", .natural situation.state), ("tree_node", .natural situation.node),
    ("action", .optional .text situation.action)]

/-- A chain as it is written. -/
def draft (chain : Chain Nat Float) : Draft :=
  .record [("states", .list (chain.situations.toList.map situationDraft)),
    ("transitions", .list (chain.rows.toList.map fun row =>
      .list (row.map fun (target, probability) =>
        .list [.natural target, .double probability]))),
    ("initial", .natural chain.start)]

end HorizonUct.Chain
