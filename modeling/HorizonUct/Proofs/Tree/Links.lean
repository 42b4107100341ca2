import HorizonUct.Tree.Growth
import Mathlib.Data.List.Basic
import Mathlib.Order.Basic

/-!
# Parents and children

The table of a tree names every edge twice, at the parent and at the child.
Linked tables are those in which the two agree, parents come first and no
child is named twice; layered ones alternate between states and actions
besides, and only expanded nodes have children. Putting a node under a parent
keeps the links, whatever its role; making the children of a bare node keeps
the layers.
-/

namespace HorizonUct

/-- Two nodes that differ at most in their statistics. -/
structure Node.Alike {S α : Type} (old new : Node S α) : Prop where
  /-- The same role. -/
  role : new.role = old.role
  /-- The same probability. -/
  reach : new.reach = old.reach
  /-- Children made or not. -/
  expanded : new.expanded = old.expanded
  /-- The same parent. -/
  parent : new.parent = old.parent
  /-- The same children. -/
  children : new.children = old.children

namespace Node

variable {S α : Type}

/-- Counting a visit changes statistics only. -/
theorem alike_countVisit (node : Node S α) : node.Alike node.countVisit :=
  ⟨rfl, rfl, rfl, rfl, rfl⟩

/-- Taking a visit back changes statistics only. -/
theorem alike_dropVisit (node : Node S α) : node.Alike node.dropVisit :=
  ⟨rfl, rfl, rfl, rfl, rfl⟩

/-- Learning a return changes statistics only. -/
theorem alike_foldReturn [Scalar α] (node : Node S α) (value : α) :
    node.Alike (node.foldReturn value) :=
  ⟨rfl, rfl, rfl, rfl, rfl⟩

/-- Nodes that differ from one node at most in their statistics do so from each other. -/
theorem Alike.trans {first second third : Node S α} (h : first.Alike second)
    (h' : second.Alike third) : first.Alike third :=
  ⟨h'.role.trans h.role, h'.reach.trans h.reach, h'.expanded.trans h.expanded,
    h'.parent.trans h.parent, h'.children.trans h.children⟩

/-- A node as it is made: never visited, and without children. -/
structure Blank [Scalar α] (node : Node S α) : Prop where
  /-- No visits. -/
  visits : node.visits = 0
  /-- Its mean return starts at nought. -/
  mean : node.mean = Scalar.zero
  /-- Its children have not been made. -/
  expanded : node.expanded = false
  /-- There are none. -/
  children : node.children = []

/-- A fresh node is blank. -/
theorem blank_fresh [Scalar α] (role : Role S) (reach : Option α) : (fresh role reach).Blank :=
  ⟨rfl, rfl, rfl, rfl⟩

end Node

namespace Tree

variable {S α : Type}

/-- A table in which parents and children agree. -/
structure Linked (tree : Tree S α) : Prop where
  /-- The root has no parent. -/
  parent_root : ∀ {node : Node S α}, tree.nodes[0]? = some node → node.parent = none
  /-- Every other node comes after its parent. -/
  parent_lt : ∀ {id : Nat} {node : Node S α}, tree.nodes[id]? = some node → 0 < id →
    ∃ parent < id, node.parent = some parent
  /-- The children of a node are those that name it as their parent. -/
  mem_children : ∀ {id : Nat} {node : Node S α}, tree.nodes[id]? = some node → ∀ other,
    other ∈ node.children ↔
      ∃ child : Node S α, tree.nodes[other]? = some child ∧ child.parent = some id
  /-- Children are named in the order of the table, and once. -/
  sorted : ∀ {id : Nat} {node : Node S α}, tree.nodes[id]? = some node →
    node.children.Pairwise (· < ·)

/-- A linked table whose levels alternate below a state. -/
structure Layered (tree : Tree S α) : Prop extends Linked tree where
  /-- The root stands for a state. -/
  decision_root : ∀ {node : Node S α}, tree.nodes[0]? = some node → node.role.isDecision = true
  /-- A node is of the other kind than its parent. -/
  flips : ∀ {id up : Nat} {node parent : Node S α}, tree.nodes[id]? = some node →
    node.parent = some up → tree.nodes[up]? = some parent →
      node.role.isDecision = !parent.role.isDecision
  /-- Only expanded nodes have children. -/
  bare : ∀ {id : Nat} {node : Node S α}, tree.nodes[id]? = some node → node.expanded = false →
    node.children = []

/-- An index that names a node is below the size. -/
theorem lt_size {tree : Tree S α} {id : Nat} {node : Node S α}
    (h : tree.nodes[id]? = some node) : id < tree.size :=
  (Array.getElem?_eq_some_iff.mp h).1

/-- Every index below the size names a node. -/
theorem exists_of_lt {tree : Tree S α} {id : Nat} (h : id < tree.size) :
    ∃ node, tree.nodes[id]? = some node :=
  ⟨tree.nodes[id], Array.getElem?_eq_getElem h⟩

/-- The root has index nought. -/
theorem getElem?_root (tree : Tree S α) : tree.nodes[0]? = some tree.root :=
  Array.getElem?_eq_getElem tree.size_pos

/-- A root alone is found at index nought, and nothing else is. -/
theorem getElem?_ofRoot [Scalar α] {state : S} {id : Nat} {node : Node S α}
    (h : (ofRoot state : Tree S α).nodes[id]? = some node) :
    id = 0 ∧ node = .decision state none := by
  have hid : id < 1 := lt_size h
  obtain rfl : id = 0 := by omega
  exact ⟨rfl, (Option.some.inj h).symm⟩

/-- The parent of a node comes before it. -/
theorem Linked.lt_of_parent {tree : Tree S α} {id up : Nat} {node : Node S α}
    (linked : tree.Linked) (h : tree.nodes[id]? = some node) (hp : node.parent = some up) :
    up < id := by
  rcases Nat.eq_zero_or_pos id with rfl | hpos
  · rw [linked.parent_root h] at hp
    cases hp
  · obtain ⟨parent, hlt, he⟩ := linked.parent_lt h hpos
    rw [hp, Option.some.injEq] at he
    omega

/-- What a look-up finds after a node was put under a parent: the new node, or
an old one whose list of children may have grown. -/
theorem attach_cases {tree : Tree S α} {parent other : Nat} {child found : Node S α}
    (hp : parent < tree.size)
    (h : (tree.attach parent child).1.nodes[other]? = some found) :
    (other = tree.size ∧ found = { child with parent := some parent }) ∨
      ∃ old, tree.nodes[other]? = some old ∧ found =
        if parent = other then { old with children := old.children ++ [tree.size] } else old := by
  rw [getElem?_attach] at h
  obtain ⟨old, ho, hf⟩ := Option.map_eq_some_iff.mp h
  by_cases hs : other = tree.size
  · rw [if_pos hs, Option.some.injEq] at ho
    rw [if_neg (by omega)] at hf
    exact .inl ⟨hs, by rw [← hf, ← ho]⟩
  · rw [if_neg hs] at ho
    exact .inr ⟨old, ho, hf.symm⟩

/-- What becomes of an old node when another is put under a parent. -/
theorem attach_old {tree : Tree S α} {parent other : Nat} {child old : Node S α}
    (h : tree.nodes[other]? = some old) :
    (tree.attach parent child).1.nodes[other]? = some
      (if parent = other then { old with children := old.children ++ [tree.size] } else old) := by
  have hs : other ≠ tree.size := Nat.ne_of_lt (lt_size h)
  rw [getElem?_attach, if_neg hs, h, Option.map_some]

/-- The new node has the parent it was put under. -/
theorem attach_new {tree : Tree S α} {parent : Nat} {child : Node S α} (hp : parent < tree.size) :
    (tree.attach parent child).1.nodes[tree.size]? =
      some { child with parent := some parent } := by
  have hn : parent ≠ tree.size := by omega
  rw [getElem?_attach, if_pos rfl, Option.map_some, if_neg hn]

/-- A child in the grown table is the new node, or was a child before. -/
theorem attach_child_iff {tree : Tree S α} {parent id other : Nat} {child : Node S α}
    (hp : parent < tree.size) :
    (∃ node, (tree.attach parent child).1.nodes[other]? = some node ∧ node.parent = some id) ↔
      (other = tree.size ∧ id = parent) ∨
        ∃ node, tree.nodes[other]? = some node ∧ node.parent = some id := by
  constructor
  · rintro ⟨node, hn, hpar⟩
    rcases attach_cases hp hn with ⟨hs, rfl⟩ | ⟨old, ho, rfl⟩
    · exact .inl ⟨hs, (Option.some.inj hpar).symm⟩
    · exact .inr ⟨old, ho, by split at hpar <;> exact hpar⟩
  · rintro (⟨rfl, rfl⟩ | ⟨node, hn, hpar⟩)
    · exact ⟨_, attach_new hp, rfl⟩
    · exact ⟨_, attach_old hn, by split <;> exact hpar⟩

/-- Putting a bare node under a parent keeps the links, whatever stands where. -/
theorem Linked.attach {tree : Tree S α} {parent : Nat} {child : Node S α} (linked : tree.Linked)
    (hp : parent < tree.size) (hc : child.children = []) :
    (tree.attach parent child).1.Linked := by
  refine ⟨?_, ?_, ?_, ?_⟩
  · intro node h
    rcases attach_cases hp h with ⟨hs, -⟩ | ⟨old, ho, rfl⟩
    · omega
    · have hnone := linked.parent_root ho
      split <;> exact hnone
  · intro id node h hid
    rcases attach_cases hp h with ⟨hs, rfl⟩ | ⟨old, ho, rfl⟩
    · exact ⟨parent, by omega, rfl⟩
    · obtain ⟨up, hlt, hup⟩ := linked.parent_lt ho hid
      exact ⟨up, hlt, by split <;> exact hup⟩
  · intro id node h other
    rw [attach_child_iff hp]
    rcases attach_cases hp h with ⟨hs, rfl⟩ | ⟨old, ho, rfl⟩
    · simp only [hc, List.not_mem_nil, false_iff, not_or, not_exists, not_and]
      refine ⟨fun _ => by omega, fun c hother hpar => ?_⟩
      have hlt := lt_size hother
      have before := linked.lt_of_parent hother hpar
      omega
    · split
      · next he =>
        rw [List.mem_append, List.mem_singleton, linked.mem_children ho other]
        constructor
        · rintro (h | h)
          · exact .inr h
          · exact .inl ⟨h, he.symm⟩
        · rintro (⟨h, -⟩ | h)
          · exact .inr h
          · exact .inl h
      · next he =>
        rw [linked.mem_children ho other]
        exact ⟨.inr, fun h => h.resolve_left fun hn => he hn.2.symm⟩
  · intro id node h
    rcases attach_cases hp h with ⟨-, rfl⟩ | ⟨old, ho, rfl⟩
    · rw [hc]
      exact List.Pairwise.nil
    · split
      · refine List.pairwise_append.mpr ⟨linked.sorted ho, List.pairwise_singleton _ _, ?_⟩
        intro a ha b hb
        obtain ⟨c, hc, -⟩ := (linked.mem_children ho a).mp ha
        rw [List.mem_singleton.mp hb]
        exact lt_size hc
      · exact linked.sorted ho

/-- What a look-up finds after a change of one node. -/
theorem modify_cases {tree : Tree S α} {id other : Nat} {change : Node S α → Node S α}
    {found : Node S α} (h : (tree.modify id change).nodes[other]? = some found) :
    ∃ old, tree.nodes[other]? = some old ∧ found = if id = other then change old else old := by
  rw [getElem?_modify] at h
  split at h
  · next he =>
    obtain ⟨old, ho, hf⟩ := Option.map_eq_some_iff.mp h
    exact ⟨old, ho, by rw [if_pos he, hf]⟩
  · next he => exact ⟨found, h, by rw [if_neg he]⟩

/-- What becomes of a node when one is changed. -/
theorem modify_old {tree : Tree S α} {id other : Nat} {change : Node S α → Node S α}
    {old : Node S α} (h : tree.nodes[other]? = some old) :
    (tree.modify id change).nodes[other]? = some (if id = other then change old else old) := by
  rw [getElem?_modify, h]
  split <;> rfl

/-- A change of a node that keeps its parent and its children keeps the links. -/
theorem Linked.modify {tree : Tree S α} {id : Nat} {change : Node S α → Node S α}
    (linked : tree.Linked) (hp : ∀ node, (change node).parent = node.parent)
    (hc : ∀ node, (change node).children = node.children) : (tree.modify id change).Linked := by
  have parent : ∀ (other : Nat) (old : Node S α),
      (if id = other then change old else old).parent = old.parent := by
    intro other old
    split
    · exact hp old
    · rfl
  have children : ∀ (other : Nat) (old : Node S α),
      (if id = other then change old else old).children = old.children := by
    intro other old
    split
    · exact hc old
    · rfl
  refine ⟨?_, ?_, ?_, ?_⟩
  · intro node h
    obtain ⟨old, ho, rfl⟩ := modify_cases h
    rw [parent]
    exact linked.parent_root ho
  · intro other node h hpos
    obtain ⟨old, ho, rfl⟩ := modify_cases h
    rw [parent]
    exact linked.parent_lt ho hpos
  · intro other node h child
    obtain ⟨old, ho, rfl⟩ := modify_cases h
    rw [children, linked.mem_children ho child]
    constructor
    · rintro ⟨c, hc, hpar⟩
      exact ⟨_, modify_old hc, by rw [parent, hpar]⟩
    · rintro ⟨c, hc, hpar⟩
      obtain ⟨b, hb, rfl⟩ := modify_cases hc
      exact ⟨b, hb, by rw [← hpar, parent]⟩
  · intro other node h
    obtain ⟨old, ho, rfl⟩ := modify_cases h
    rw [children]
    exact linked.sorted ho

/-- Putting several nodes under a parent, in order. -/
def attachAll (tree : Tree S α) (id : Nat) (children : List (Node S α)) : Tree S α :=
  children.foldl (fun tree child => (tree.attach id child).1) tree

/-- Adoption puts the children under the node and marks it. -/
theorem adopt_eq (tree : Tree S α) (id : Nat) (children : List (Node S α)) :
    tree.adopt id children =
      (tree.attachAll id children).modify id fun node => { node with expanded := true } := rfl

/-- Several new nodes are so many nodes more. -/
theorem size_attachAll (tree : Tree S α) (id : Nat) (children : List (Node S α)) :
    (tree.attachAll id children).size = tree.size + children.length := by
  induction children generalizing tree with
  | nil => rfl
  | cons child rest ih =>
    rw [attachAll, List.foldl_cons, ← attachAll, ih, size_attach, List.length_cons]
    omega

/-- Adoption adds the children to the table. -/
@[simp]
theorem size_adopt (tree : Tree S α) (id : Nat) (children : List (Node S α)) :
    (tree.adopt id children).size = tree.size + children.length := by
  rw [adopt_eq, size_modify, size_attachAll]

/-- What becomes of an old node when several are put under a parent. -/
theorem attachAll_old {tree : Tree S α} {id other : Nat} {old : Node S α}
    (children : List (Node S α)) (h : tree.nodes[other]? = some old) :
    (tree.attachAll id children).nodes[other]? = some (if id = other then
      { old with children := old.children ++ List.range' tree.size children.length }
        else old) := by
  induction children generalizing tree old with
  | nil =>
    rw [List.length_nil, List.range'_zero, List.append_nil]
    split <;> exact h
  | cons child rest ih =>
    rw [attachAll, List.foldl_cons, ← attachAll, ih (attach_old h), size_attach]
    split
    · rw [List.length_cons, List.range'_succ, List.append_assoc]
      rfl
    · rfl

/-- Where the new nodes stand when several are put under a parent. -/
theorem attachAll_new {tree : Tree S α} {id k : Nat} {children : List (Node S α)}
    {child : Node S α} (hid : id < tree.size) (h : children[k]? = some child) :
    (tree.attachAll id children).nodes[tree.size + k]? =
      some { child with parent := some id } := by
  induction children generalizing tree k with
  | nil => cases h
  | cons first rest ih =>
    rw [attachAll, List.foldl_cons, ← attachAll]
    cases k with
    | zero =>
      rw [List.getElem?_cons_zero, Option.some.injEq] at h
      have hn : id ≠ tree.size := by omega
      rw [Nat.add_zero, attachAll_old rest (attach_new hid), if_neg hn, h]
    | succ k =>
      rw [List.getElem?_cons_succ] at h
      have hs : tree.size + (k + 1) = (tree.attach id first).1.size + k := by
        rw [size_attach]
        omega
      rw [hs]
      exact ih (by rw [size_attach]; omega) h

/-- What becomes of an old node when one adopts children. -/
theorem adopt_old {tree : Tree S α} {id other : Nat} {old : Node S α}
    (children : List (Node S α)) (h : tree.nodes[other]? = some old) :
    (tree.adopt id children).nodes[other]? = some (if id = other then
      { old with
        children := old.children ++ List.range' tree.size children.length
        expanded := true }
      else old) := by
  rw [adopt_eq, modify_old (attachAll_old children h)]
  split <;> rfl

/-- Where adopted children stand. -/
theorem adopt_new {tree : Tree S α} {id k : Nat} {children : List (Node S α)}
    {child : Node S α} (hid : id < tree.size) (h : children[k]? = some child) :
    (tree.adopt id children).nodes[tree.size + k]? = some { child with parent := some id } := by
  have hn : id ≠ tree.size + k := by omega
  rw [adopt_eq, modify_old (attachAll_new hid h), if_neg hn]

/-- What a look-up finds after an adoption: a child, or an old node. -/
theorem adopt_cases {tree : Tree S α} {id other : Nat} {children : List (Node S α)}
    {found : Node S α} (hid : id < tree.size)
    (h : (tree.adopt id children).nodes[other]? = some found) :
    (∃ k child, children[k]? = some child ∧ other = tree.size + k ∧
        found = { child with parent := some id }) ∨
      ∃ old, tree.nodes[other]? = some old ∧ found = if id = other then
        { old with
          children := old.children ++ List.range' tree.size children.length
          expanded := true }
        else old := by
  have hlt := lt_size h
  rw [size_adopt] at hlt
  rcases Nat.lt_or_ge other tree.size with hold | hnew
  · obtain ⟨old, ho⟩ := exists_of_lt hold
    rw [adopt_old children ho, Option.some.injEq] at h
    exact .inr ⟨old, ho, h.symm⟩
  · obtain ⟨k, rfl⟩ := Nat.exists_eq_add_of_le hnew
    have hk : k < children.length := by omega
    have hc := List.getElem?_eq_getElem hk
    rw [adopt_new hid hc, Option.some.injEq] at h
    exact .inl ⟨k, _, hc, rfl, h.symm⟩

/-- Putting blank nodes under a parent keeps the links. -/
theorem Linked.attachAll [Scalar α] {tree : Tree S α} {id : Nat} {children : List (Node S α)}
    (linked : tree.Linked) (hid : id < tree.size) (blank : ∀ child ∈ children, child.Blank) :
    (tree.attachAll id children).Linked := by
  induction children generalizing tree with
  | nil => exact linked
  | cons child rest ih =>
    have hc := (blank child List.mem_cons_self).children
    rw [Tree.attachAll, List.foldl_cons, ← Tree.attachAll]
    refine ih (linked.attach hid hc) ?_ fun other h => blank other (List.mem_cons_of_mem _ h)
    rw [size_attach]
    omega

/-- Adopting blank nodes keeps the links. -/
theorem Linked.adopt [Scalar α] {tree : Tree S α} {id : Nat} {children : List (Node S α)}
    (linked : tree.Linked) (hid : id < tree.size) (blank : ∀ child ∈ children, child.Blank) :
    (tree.adopt id children).Linked := by
  rw [adopt_eq]
  exact (linked.attachAll hid blank).modify (fun _ => rfl) fun _ => rfl

/-- Adopting blank nodes of the other kind keeps the layers. -/
theorem Layered.adopt [Scalar α] {tree : Tree S α} {id : Nat} {node : Node S α}
    {children : List (Node S α)} (layered : tree.Layered) (hn : tree.nodes[id]? = some node)
    (blank : ∀ child ∈ children, child.Blank)
    (flips : ∀ child ∈ children, child.role.isDecision = !node.role.isDecision) :
    (tree.adopt id children).Layered := by
  have hid := lt_size hn
  -- nothing but the children and the mark of an old node changes
  have old : ∀ {other : Nat} {found : Node S α}, other < tree.size →
      (tree.adopt id children).nodes[other]? = some found →
      ∃ before, tree.nodes[other]? = some before ∧ found.role = before.role ∧
        found.parent = before.parent ∧ (found.expanded = false → found = before) := by
    intro other found hlt h
    rcases adopt_cases hid h with ⟨k, child, -, rfl, -⟩ | ⟨before, hb, rfl⟩
    · omega
    · refine ⟨before, hb, ?_⟩
      split
      · exact ⟨rfl, rfl, fun he => by cases he⟩
      · exact ⟨rfl, rfl, fun _ => rfl⟩
  refine ⟨layered.toLinked.adopt hid blank, ?_, ?_, ?_⟩
  · intro found h
    obtain ⟨before, hb, hr, -⟩ := old tree.size_pos h
    rw [hr]
    exact layered.decision_root hb
  · intro other up found above h hpar habove
    rcases adopt_cases hid h with ⟨k, child, hk, rfl, rfl⟩ | ⟨before, hb, hf⟩
    · cases Option.some.inj hpar
      obtain ⟨before, hb, hr, -⟩ := old hid habove
      rw [hn, Option.some.injEq] at hb
      rw [hr, ← hb]
      exact flips child (List.mem_of_getElem? hk)
    · have hlt := lt_size hb
      obtain ⟨before, hb, hr, hp, -⟩ := old hlt h
      rw [hp] at hpar
      have hup : up < tree.size := Nat.lt_trans (layered.lt_of_parent hb hpar) hlt
      obtain ⟨above', ha, hr', -⟩ := old hup habove
      rw [hr, hr']
      exact layered.flips hb hpar ha
  · intro other found h hbare
    rcases adopt_cases hid h with ⟨k, child, hk, rfl, rfl⟩ | ⟨before, hb, hf⟩
    · exact (blank child (List.mem_of_getElem? hk)).children
    · obtain ⟨before, hb, -, -, hf⟩ := old (lt_size hb) h
      obtain rfl := hf hbare
      exact layered.bare hb hbare

/-- A change of statistics keeps the layers. -/
theorem Layered.modify {tree : Tree S α} {id : Nat} {change : Node S α → Node S α}
    (layered : tree.Layered) (alike : ∀ node : Node S α, node.Alike (change node)) :
    (tree.modify id change).Layered := by
  have same : ∀ (other : Nat) (old : Node S α),
      old.Alike (if id = other then change old else old) := by
    intro other old
    split
    · exact alike old
    · exact ⟨rfl, rfl, rfl, rfl, rfl⟩
  refine ⟨layered.toLinked.modify (fun node => (alike node).parent)
    fun node => (alike node).children, ?_, ?_, ?_⟩
  · intro node h
    obtain ⟨old, ho, rfl⟩ := modify_cases h
    rw [(same 0 old).role]
    exact layered.decision_root ho
  · intro other up node above h hpar habove
    obtain ⟨old, ho, rfl⟩ := modify_cases h
    obtain ⟨oldAbove, ha, rfl⟩ := modify_cases habove
    rw [(same other old).parent] at hpar
    rw [(same other old).role, (same up oldAbove).role]
    exact layered.flips ho hpar ha
  · intro other node h hbare
    obtain ⟨old, ho, rfl⟩ := modify_cases h
    rw [(same other old).expanded] at hbare
    rw [(same other old).children]
    exact layered.bare ho hbare

/-- A root alone is layered. -/
theorem layered_ofRoot [Scalar α] (state : S) : (ofRoot state : Tree S α).Layered := by
  refine ⟨⟨?_, ?_, ?_, ?_⟩, ?_, ?_, ?_⟩
  · intro node h
    rw [(getElem?_ofRoot h).2]
    rfl
  · intro id node h hpos
    have first := (getElem?_ofRoot h).1
    omega
  · intro id node h other
    rw [(getElem?_ofRoot h).2]
    refine ⟨fun hm => (List.not_mem_nil hm).elim, ?_⟩
    rintro ⟨child, hc, hp⟩
    rw [(getElem?_ofRoot hc).2] at hp
    cases hp
  · intro id node h
    rw [(getElem?_ofRoot h).2]
    exact List.Pairwise.nil
  · intro node h
    rw [(getElem?_ofRoot h).2]
    rfl
  · intro id up node parent h hp
    rw [(getElem?_ofRoot h).2] at hp
    cases hp
  · intro id node h _
    rw [(getElem?_ofRoot h).2]
    rfl

end Tree

end HorizonUct
