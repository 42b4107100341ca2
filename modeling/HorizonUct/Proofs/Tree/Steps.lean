import HorizonUct.Proofs.Tree.Links
import Mathlib.Logic.Relation

/-!
# How a tree changes

Whatever a search does to its tree is a row of two kinds of steps: the
statistics of a node change, or a node without children adopts some. What may
be adopted is a parameter. All that such steps add comes at the end of the
table: no node is lost, none changes its role, and none gets children more than
once. A tree that has changed so extends the former one, which is as much of it
as is needed to find again what has been expanded.
-/

namespace HorizonUct.Tree

variable {S α : Type}

/-- What of a node stays as a tree grows. -/
structure Kept (before after : Node S α) : Prop where
  /-- Its role. -/
  role : after.role = before.role
  /-- Its probability. -/
  reach : after.reach = before.reach
  /-- Its parent. -/
  parent : after.parent = before.parent
  /-- That it is expanded, if it is. -/
  expanded : before.expanded = true → after.expanded = true
  /-- Its children, if it is expanded. -/
  children : before.expanded = true → after.children = before.children

/-- A tree extends another if each node of that one is kept. -/
def Extends (old new : Tree S α) : Prop :=
  ∀ ⦃id : Nat⦄ ⦃before : Node S α⦄, old.nodes[id]? = some before →
    ∃ after, new.nodes[id]? = some after ∧ Kept before after

/-- An extension has the same root, up to what it has learnt. -/
theorem Extends.role_root {old new : Tree S α} (h : old.Extends new) :
    new.root.role = old.root.role := by
  obtain ⟨after, found, kept⟩ := h (getElem?_root old)
  rw [getElem?_root, Option.some.injEq] at found
  rw [found, kept.role]

/-- What may become of a node when all that is added gets indices from `low` on
and below `high`. -/
structure Grows (low high : Nat) (before after : Node S α) : Prop where
  /-- Its role stays. -/
  role : after.role = before.role
  /-- Its probability stays. -/
  reach : after.reach = before.reach
  /-- Its parent stays. -/
  parent : after.parent = before.parent
  /-- Its children stay, or it is expanded by nodes that were added. -/
  children : (after.expanded = before.expanded ∧ after.children = before.children) ∨
    (before.expanded = false ∧ after.expanded = true ∧ ∃ made : List Nat,
      after.children = before.children ++ made ∧ ∀ id ∈ made, low ≤ id ∧ id < high)

/-- A tree comes from another by adding nodes at the end. -/
structure Appends (old new : Tree S α) : Prop where
  /-- No node is lost. -/
  size_le : old.size ≤ new.size
  /-- Each of them keeps its index. -/
  nodes : ∀ {id : Nat} {before : Node S α}, old.nodes[id]? = some before →
    ∃ after, new.nodes[id]? = some after ∧ Grows old.size new.size before after

/-- A node may stay as it is. -/
theorem Grows.refl {low high : Nat} (node : Node S α) : Grows low high node node :=
  ⟨rfl, rfl, rfl, .inl ⟨rfl, rfl⟩⟩

/-- What is added in two turns is added from the first size to the last. -/
theorem Grows.trans {low middle high : Nat} {first second third : Node S α}
    (h : Grows low middle first second) (h' : Grows middle high second third)
    (below : low ≤ middle) (above : middle ≤ high) : Grows low high first third := by
  refine ⟨h'.role.trans h.role, h'.reach.trans h.reach, h'.parent.trans h.parent, ?_⟩
  rcases h.children with ⟨he, hc⟩ | ⟨bare, he, made, hc, hm⟩
  · rcases h'.children with ⟨he', hc'⟩ | ⟨bare', he', made, hc', hm⟩
    · exact .inl ⟨he'.trans he, hc'.trans hc⟩
    · refine .inr ⟨he.symm.trans bare', he', made, by rw [hc', hc], fun id mem => ?_⟩
      have bounds := hm id mem
      omega
  · rcases h'.children with ⟨he', hc'⟩ | ⟨bare', -⟩
    · refine .inr ⟨bare, he'.trans he, made, hc'.trans hc, fun id mem => ?_⟩
      have bounds := hm id mem
      omega
    · -- a node is expanded once
      rw [he] at bare'
      cases bare'

/-- Nothing need be added. -/
theorem Appends.refl (tree : Tree S α) : tree.Appends tree :=
  ⟨Nat.le_refl _, fun found => ⟨_, found, .refl _⟩⟩

/-- Nodes may be added in two turns. -/
theorem Appends.trans {first second third : Tree S α} (h : first.Appends second)
    (h' : second.Appends third) : first.Appends third := by
  refine ⟨Nat.le_trans h.size_le h'.size_le, fun found => ?_⟩
  obtain ⟨middle, hm, grows⟩ := h.nodes found
  obtain ⟨after, ha, grows'⟩ := h'.nodes hm
  exact ⟨after, ha, grows.trans grows' h.size_le h'.size_le⟩

/-- What was there before is kept. -/
theorem Appends.extends {old new : Tree S α} (h : old.Appends new) : old.Extends new := by
  intro id before found
  obtain ⟨after, ha, grows⟩ := h.nodes found
  refine ⟨after, ha, grows.role, grows.reach, grows.parent, fun he => ?_, fun he => ?_⟩
  · rcases grows.children with ⟨same, -⟩ | ⟨-, opened, -⟩
    · rw [same, he]
    · exact opened
  · rcases grows.children with ⟨-, same⟩ | ⟨bare, -⟩
    · exact same
    · rw [he] at bare
      cases bare

section Change

variable [Scalar α]

/-- One change of a tree, where `gives` says which children a node may adopt. -/
inductive Step (gives : Tree S α → Nat → List (Node S α) → Prop) :
    Tree S α → Tree S α → Prop where
  /-- The statistics of a node change. -/
  | revise (tree : Tree S α) (id : Nat) {change : Node S α → Node S α}
      (alike : ∀ node : Node S α, node.Alike (change node)) :
      Step gives tree (tree.modify id change)
  /-- A node that is not expanded adopts children. -/
  | adopt {tree : Tree S α} {id : Nat} {node : Node S α} {children : List (Node S α)}
      (found : tree.nodes[id]? = some node) (bare : node.expanded = false)
      (blank : ∀ child ∈ children, child.Blank)
      (flips : ∀ child ∈ children, child.role.isDecision = !node.role.isDecision)
      (given : gives tree id children) : Step gives tree (tree.adopt id children)

/-- Changes in a row. -/
abbrev Steps (gives : Tree S α → Nat → List (Node S α) → Prop) : Tree S α → Tree S α → Prop :=
  Relation.ReflTransGen (Step gives)

/-- Changes in a row, where a node may adopt any blank children of the other kind. -/
abbrev Changes : Tree S α → Tree S α → Prop := Steps fun _ _ _ => True

variable {gives : Tree S α → Nat → List (Node S α) → Prop} {old new : Tree S α}

/-- A change keeps the links. -/
theorem Step.linked (step : Step gives old new) (linked : old.Linked) : new.Linked := by
  cases step with
  | revise id alike =>
    exact linked.modify (fun node => (alike node).parent) fun node => (alike node).children
  | adopt found _ blank _ _ => exact linked.adopt (lt_size found) blank

/-- A change keeps the layers. -/
theorem Step.layered (step : Step gives old new) (layered : old.Layered) : new.Layered := by
  cases step with
  | revise id alike => exact layered.modify alike
  | adopt found _ blank flips _ => exact layered.adopt found blank flips

/-- A change adds nodes at the end. -/
theorem Step.appends (step : Step gives old new) : old.Appends new := by
  cases step with
  | @revise changed change alike =>
    have size := size_modify old changed change
    refine ⟨by omega, fun {id before} found => ⟨_, modify_old found, ?_⟩⟩
    by_cases he : changed = id
    · have same := alike before
      rw [if_pos he]
      exact ⟨same.role, same.reach, same.parent, .inl ⟨same.expanded, same.children⟩⟩
    · rw [if_neg he]
      exact .refl before
  | @adopt adopter node children present bare _ _ _ =>
    have size := size_adopt old adopter children
    refine ⟨by omega, fun {id before} found => ⟨_, adopt_old children found, ?_⟩⟩
    by_cases he : adopter = id
    · -- the node that adopts was not expanded
      rw [he, found, Option.some.injEq] at present
      rw [← present] at bare
      rw [if_pos he]
      refine ⟨rfl, rfl, rfl, .inr ⟨bare, rfl, _, rfl, fun other mem => ?_⟩⟩
      have range := List.mem_range'_1.mp mem
      omega
    · rw [if_neg he]
      exact .refl before

/-- A changed tree extends the former one. -/
theorem Step.extends (step : Step gives old new) : old.Extends new :=
  step.appends.extends

/-- Changes in a row keep what each single one keeps. -/
theorem Steps.preserve {P : Tree S α → Prop}
    (step : ∀ {old new : Tree S α}, Step gives old new → P old → P new)
    (steps : Steps gives old new) (h : P old) : P new := by
  induction steps with
  | refl => exact h
  | tail _ last ih => exact step last ih

/-- Changes in a row keep the links. -/
theorem Steps.linked (steps : Steps gives old new) (linked : old.Linked) : new.Linked :=
  Steps.preserve (fun step => step.linked) steps linked

/-- Changes in a row keep the layers. -/
theorem Steps.layered (steps : Steps gives old new) (layered : old.Layered) : new.Layered :=
  Steps.preserve (fun step => step.layered) steps layered

/-- Changes in a row add nodes at the end. -/
theorem Steps.appends (steps : Steps gives old new) : old.Appends new := by
  induction steps with
  | refl => exact .refl old
  | tail _ last ih => exact ih.trans last.appends

/-- A tree extends each that it has changed from. -/
theorem Steps.extends (steps : Steps gives old new) : old.Extends new :=
  steps.appends.extends

end Change

end HorizonUct.Tree
