import HorizonUct.Decimal.Fixed
import HorizonUct.Tree.Basic

/-!
# Nodes as texts

A node is summed up by texts with names: its mean has three places and its
probability four. The label and the probability are there only if the node has
one.
-/

namespace HorizonUct

/-- The texts that sum up a node, by name. -/
def Node.summary {S : Type} (node : Node S Float) : List (String × String) :=
  [("type", if node.role.isDecision then "Decision" else "Chance"),
    ("visits", Nat.repr node.visits), ("mean_return", Decimal.fixed 3 node.mean),
    ("children", Nat.repr node.children.length)] ++
  (node.role.label?.map fun label => ("action", label)).toList ++
  (node.reach.map fun p => ("reach_probability", Decimal.fixed 4 p)).toList

end HorizonUct
