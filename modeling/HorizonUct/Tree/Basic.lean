import HorizonUct.Failure
import HorizonUct.Scalar

/-!
# Search trees

The levels of a search tree alternate between states, where the searcher is to
decide, and actions, where chance is to decide. Nodes are kept in one table
and called by their index. Index 0 is the root, and growing a tree only ever
adds to the end of the table, so an index keeps its meaning. A state that is
reached in two ways has two nodes.

The tree itself does not force the levels to alternate, nor a node to stand
under the parent that it names; both hold of every tree that is grown from a
root, and are not assumed here.
-/

namespace HorizonUct

/-- What a node stands for. -/
inductive Role (S : Type) where
  /-- A state in which an action is to be picked. -/
  | decision (state : S)
  /-- A picked action, with its place among the choices and its label. -/
  | chance (index : Nat) (label : String)
deriving DecidableEq, Repr

namespace Role

variable {S : Type}

/-- Whether an action is to be picked. -/
def isDecision : Role S → Bool
  | .decision _ => true
  | .chance _ _ => false

/-- The state of a decision. -/
def state? : Role S → Option S
  | .decision state => some state
  | .chance _ _ => none

/-- The place of an action among the choices. -/
def index? : Role S → Option Nat
  | .decision _ => none
  | .chance index _ => some index

/-- The label of an action. -/
def label? : Role S → Option String
  | .decision _ => none
  | .chance _ label => some label

end Role

/-- A node of a search tree. -/
structure Node (S α : Type) where
  /-- What the node stands for. -/
  role : Role S
  /-- The probability of the outcome that leads here, if one does. -/
  reach : Option α
  /-- How many rollouts have passed. -/
  visits : Nat
  /-- Whether the children have been made. -/
  expanded : Bool
  /-- The mean of the returns seen from here. -/
  mean : α
  /-- The node under which this one was put. -/
  parent : Option Nat
  /-- The nodes put under this one, in order. -/
  children : List Nat
deriving DecidableEq, Repr

namespace Node

variable {S α : Type}

/-- A node that has not been visited. -/
def fresh [Scalar α] (role : Role S) (reach : Option α) : Node S α where
  role := role
  reach := reach
  visits := 0
  expanded := false
  mean := Scalar.zero
  parent := none
  children := []

/-- A fresh node for a state. -/
def decision [Scalar α] (state : S) (reach : Option α) : Node S α := fresh (.decision state) reach

/-- A fresh node for an action. -/
def chance [Scalar α] (index : Nat) (label : String) : Node S α := fresh (.chance index label) none

/-- The mean return of a node that has been visited. -/
def mean? (node : Node S α) : Option α := if 0 < node.visits then some node.mean else none

/-- Count a visit. -/
def countVisit (node : Node S α) : Node S α := { node with visits := node.visits + 1 }

/-- Take a visit back. -/
def dropVisit (node : Node S α) : Node S α := { node with visits := node.visits - 1 }

/-- Fold the return of the visit counted last into the mean. -/
def foldReturn [Scalar α] (node : Node S α) (value : α) : Node S α :=
  let count : α := Scalar.ofNat node.visits
  { node with mean := ((count - Scalar.one) * node.mean + value) / count }

end Node

/-- A search tree. -/
structure Tree (S α : Type) where
  /-- The nodes, root first. -/
  nodes : Array (Node S α)
  /-- There is a root. -/
  size_pos : 0 < nodes.size

namespace Tree

variable {S α : Type}

/-- The tree that consists of a state. -/
def ofRoot [Scalar α] (state : S) : Tree S α := ⟨#[.decision state none], by simp⟩

/-- How many nodes a tree has. -/
def size (tree : Tree S α) : Nat := tree.nodes.size

/-- The root. -/
def root (tree : Tree S α) : Node S α :=
  have _ := tree.size_pos
  tree.nodes[0]

/-- The node with the given index, which must exist. -/
def node (tree : Tree S α) (id : Nat) : Except (Failure α) (Node S α) :=
  match tree.nodes[id]? with
  | some node => .ok node
  | none => .error (.missingEntry id)

/-- Change the node with the given index, if there is one. -/
def modify (tree : Tree S α) (id : Nat) (change : Node S α → Node S α) : Tree S α :=
  ⟨tree.nodes.modify id change, by simpa using tree.size_pos⟩

/-- The children of a node with their indices, in order. -/
def children (tree : Tree S α) (id : Nat) : Except (Failure α) (List (Nat × Node S α)) := do
  let parent ← tree.node id
  parent.children.mapM fun child => do return (child, ← tree.node child)

/-- The state that a node belongs to: its own, or for an action the one above. -/
def stateOf (tree : Tree S α) (id : Nat) : Except (Failure α) (Option S) := do
  let node ← tree.node id
  match node.role, node.parent with
  | .decision state, _ => return some state
  | .chance _ _, none => return none
  | .chance _ _, some parent => return (← tree.node parent).role.state?

/-- How many nodes stand for states. -/
def decisionNodes (tree : Tree S α) : Nat := tree.nodes.countP (·.role.isDecision)

/-- How many nodes stand for actions. -/
def chanceNodes (tree : Tree S α) : Nat := tree.nodes.countP fun node => !node.role.isDecision

/-- How many actions there are from a parent up to the root, within a given
number of steps. -/
def actionsUpwards (tree : Tree S α) : Nat → Option Nat → Except (Failure α) Nat
  | _, none => .ok 0
  | 0, some _ => .error .endlessWalk
  | steps + 1, some id =>
    match tree.node id with
    | .error failure => .error failure
    | .ok node =>
      match tree.actionsUpwards steps node.parent with
      | .error failure => .error failure
      | .ok above => .ok (if node.role.isDecision then above else above + 1)

/-- How many actions were taken on the way to a node, itself not counted. The
way up has fewer steps than the tree has nodes. -/
def actionsBefore (tree : Tree S α) (id : Nat) : Except (Failure α) Nat :=
  match tree.node id with
  | .error failure => .error failure
  | .ok node => tree.actionsUpwards tree.size node.parent

/-- A change keeps the number of nodes. -/
@[simp]
theorem size_modify (tree : Tree S α) (id : Nat) (change : Node S α → Node S α) :
    (tree.modify id change).size = tree.size := by simp [modify, size]

/-- Looking a node up after a change. -/
theorem getElem?_modify (tree : Tree S α) (id other : Nat) (change : Node S α → Node S α) :
    (tree.modify id change).nodes[other]? =
      if id = other then tree.nodes[other]?.map change else tree.nodes[other]? := by
  simp [modify, Array.getElem?_modify]

/-- Looking a node up succeeds exactly within the table. -/
theorem node_eq_ok_iff {tree : Tree S α} {id : Nat} {node : Node S α} :
    tree.node id = .ok node ↔ tree.nodes[id]? = some node := by
  unfold Tree.node
  split <;> simp_all

/-- States and actions are all there is. -/
theorem decisionNodes_add_chanceNodes (tree : Tree S α) :
    tree.decisionNodes + tree.chanceNodes = tree.size := by
  unfold decisionNodes chanceNodes size
  have :=
    @Array.size_eq_countP_add_countP _ (fun node : Node S α => node.role.isDecision) tree.nodes
  simp only [Bool.not_eq_true] at this
  simpa using this.symm

end Tree

end HorizonUct
