import HorizonUct.Mdp.Navigator
import HorizonUct.Tree.Basic

/-!
# How trees grow

A state is given one child per choice, an action one child per outcome. The
navigator is asked about all of them before the first one is put into the
tree, so an unanswered question leaves the tree as it was. That the navigator
stands in the state which the node belongs to is for the caller to see to.
-/

namespace HorizonUct

/-- The children of a node in its role, from the first to the last. -/
def Role.offspring {σ S α : Type} [Navigator σ S α] [Scalar α] (navigator : σ) :
    Role S → Except (Failure α) (List (Node S α))
  | .decision _ => do
    let count ← Navigator.choiceCount navigator
    (List.range count).mapM fun choice => do
      return .chance choice (← Navigator.choiceLabel navigator choice)
  | .chance index _ => do
    let count ← Navigator.outcomeCount navigator index
    (List.range count).mapM fun outcome => do
      let probability ← Navigator.probability navigator index outcome
      let target ← Navigator.target navigator index outcome
      return .decision target (some probability)

namespace Tree

variable {σ S α : Type}

/-- Put a node at the end of the table and under its parent. Its index is the
size of the tree before. -/
def attach (tree : Tree S α) (parent : Nat) (child : Node S α) : Tree S α × Nat :=
  let id := tree.nodes.size
  let grown : Tree S α := ⟨tree.nodes.push { child with parent := some parent }, by simp⟩
  (grown.modify parent fun node => { node with children := node.children ++ [id] }, id)

/-- Put children under a node in order and note that it has got them. -/
def adopt (tree : Tree S α) (id : Nat) (children : List (Node S α)) : Tree S α :=
  (children.foldl (fun tree child => (tree.attach id child).1) tree).modify id
    fun node => { node with expanded := true }

/-- Make the children of a node, unless it has got them before. -/
def expand [Navigator σ S α] [Scalar α] (tree : Tree S α) (id : Nat) (navigator : σ) :
    Except (Failure α) Unit × Tree S α :=
  match tree.node id with
  | .error failure => (.error failure, tree)
  | .ok node =>
    if node.expanded then (.ok (), tree)
    else match node.role.offspring navigator with
      | .error failure => (.error failure, tree)
      | .ok children => (.ok (), tree.adopt id children)

/-- A new node is one node more. -/
@[simp]
theorem size_attach (tree : Tree S α) (parent : Nat) (child : Node S α) :
    (tree.attach parent child).1.size = tree.size + 1 := by simp [attach, modify, size]

/-- Looking a node up after another was put under a parent. -/
theorem getElem?_attach (tree : Tree S α) (parent other : Nat) (child : Node S α) :
    (tree.attach parent child).1.nodes[other]? =
      (if other = tree.size then some { child with parent := some parent }
        else tree.nodes[other]?).map fun node =>
          if parent = other then { node with children := node.children ++ [tree.size] }
          else node := by
  have hs : tree.size = tree.nodes.size := rfl
  simp only [attach, getElem?_modify, Array.getElem?_push, hs]
  by_cases hp : parent = other
  · subst hp
    by_cases h : parent = tree.nodes.size <;> simp [h]
  · simp [hp]

end Tree

end HorizonUct
