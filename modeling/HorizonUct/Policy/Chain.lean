import HorizonUct.Journal
import HorizonUct.Tree.Ranking

/-!
# Markov chains of a policy

Once every state has been given its favourite action, chance alone is left and
the tree becomes a Markov chain, unrolled from the root. New situations go to
the end of a table, and the rows of the transition table are filled in from
the front, so situations come in the order of their distance from the start.
Two nodes for one state stay two situations.

A chain may also be given directly. No index in it is trusted then: each
operation reports the first one that points nowhere.
-/

namespace HorizonUct

/-- A state of a chain. -/
structure Situation (S : Type) where
  /-- The state of the decision process. -/
  state : S
  /-- The tree node that it unrolls. -/
  node : Nat
  /-- The label of the action that is taken in it, if one is. -/
  action : Option String
deriving DecidableEq, Repr

/-- A Markov chain. -/
structure Chain (S α : Type) where
  /-- The situations. -/
  situations : Array (Situation S)
  /-- For each situation those that may follow, with their probabilities. -/
  rows : Array (List (Nat × α))
  /-- The situation at the start. -/
  start : Nat
deriving DecidableEq, Repr

namespace Chain

variable {S α : Type}

/-- The situations that nodes unroll to, each with its probability; a node for
an action unrolls to none. -/
def unrolled [Scalar α] (nodes : List (Nat × Node S α)) : List (Situation S × α) :=
  nodes.filterMap fun (id, node) =>
    node.role.state?.map fun state => (⟨state, id, none⟩, node.reach.getD Scalar.zero)

/-- Fill in the first row that is missing: the action of its situation, and the
situations that may follow, which are put at the end. -/
def fillRow (chain : Chain S α) (action : Option String) (following : List (Situation S × α)) :
    Chain S α where
  situations :=
    chain.situations.modify chain.rows.size (fun here => { here with action := action }) ++
      following.map (·.1)
  rows := chain.rows.push
    ((following.zipIdx chain.situations.size).map fun (next, target) => (target, next.2))
  start := chain.start

/-- Fill in the first row that is missing as a tree advises, if one is. -/
def fillNext [Scalar α] (tree : Tree S α) (chain : Chain S α) :
    Except (Failure α) (Option (Chain S α)) :=
  match chain.situations[chain.rows.size]? with
  | none => .ok none
  | some here => do
    match ← tree.favourite here.node with
    | none => return some (chain.fillRow none [])
    | some best =>
      let action ← tree.node best
      let outcomes ← tree.children best
      return some (chain.fillRow action.role.label? (unrolled outcomes))

/-- Fill in rows until none is missing, at most a given number of them. -/
def fill [Scalar α] (tree : Tree S α) : Nat → Chain S α → Except (Failure α) (Chain S α)
  | bound, chain =>
    match chain.fillNext tree, bound with
    | .error failure, _ => .error failure
    | .ok none, _ => .ok chain
    | .ok (some _), 0 => .error .endlessWalk
    | .ok (some next), bound + 1 => fill tree bound next

/-- The chain that consists of the root of a tree, its row still missing. -/
def ofState (state : S) : Chain S α := ⟨#[⟨state, 0, none⟩], #[], 0⟩

/-- The chain that a tree unrolls to. Each situation has a node of its own, so
there are no more rows than nodes. -/
def ofTree [Scalar α] (tree : Tree S α) : Except (Failure α) (Chain S α) :=
  match tree.root.role.state? with
  | some state => fill tree tree.size (ofState state)
  | none => .error (.navigation .chanceRoot)

/-- How many situations there are. -/
def size (chain : Chain S α) : Nat := chain.situations.size

/-- How many transitions there are. -/
def transitionCount (chain : Chain S α) : Nat :=
  chain.rows.foldl (fun count row => count + row.length) 0

/-- What the unrolling of a tree to a chain enters in the journal. -/
def event (chain : Chain S α) : Event α := .chainUnrolled chain.size chain.transitionCount

/-- What may follow a situation, with the probabilities. -/
def row (chain : Chain S α) (index : Nat) : Except (Failure α) (List (Nat × α)) :=
  match chain.rows[index]? with
  | some row => .ok row
  | none => .error (.missingEntry index)

/-- A situation of a chain. -/
def situation (chain : Chain S α) (index : Nat) : Except (Failure α) (Situation S) :=
  match chain.situations[index]? with
  | some situation => .ok situation
  | none => .error (.missingEntry index)

/-- The transitions as source, target and probability, row by row. -/
def transitions (chain : Chain S α) : List (Nat × Nat × α) :=
  chain.rows.toList.zipIdx.flatMap fun (row, source) =>
    row.map fun (target, probability) => (source, target, probability)

end Chain

end HorizonUct
