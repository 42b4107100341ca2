import HorizonUct.Proofs.Attempt
import HorizonUct.Proofs.Tree.Steps
import HorizonUct.Tree.Lottery
import HorizonUct.Tree.Ranking

/-!
# What is picked below a node

Selecting, drawing and favouring read the children of a node off the table and
pick one of them. Nothing is picked exactly if there is nothing to pick from,
and an outcome is drawn only where the probabilities make a distribution. What
a pick depends on stays as the tree grows.
-/

namespace HorizonUct

/-- An entry that a draw reaches is one of those it ran through. -/
theorem mem_of_firstReaching {α : Type} [Scalar α] {draw running : α}
    {weights : List (Nat × α)} {child : Nat}
    (h : firstReaching draw running weights = .ok child) : child ∈ weights.map Prod.fst := by
  induction weights generalizing running with
  | nil => cases h
  | cons entry rest ih =>
    rw [firstReaching] at h
    rw [List.map_cons]
    split at h
    · cases h
      exact List.mem_cons_self
    · exact List.mem_cons_of_mem _ (ih h)

/-- Exactly the visited nodes have a mean. -/
theorem Node.mean?_eq_some_iff {S α : Type} {node : Node S α} {mean : α} :
    node.mean? = some mean ↔ 0 < node.visits ∧ node.mean = mean := by
  rw [Node.mean?]
  split
  · next visited => rw [Option.some.injEq, and_iff_right visited]
  · next none => exact ⟨nofun, fun h => (none h.1).elim⟩

namespace Tree

variable {S α : Type} {tree : Tree S α} {id : Nat} {node : Node S α}

/-- The children of a node are found if each of them is in the table. -/
theorem children_eq_ok_iff {children : List (Nat × Node S α)} :
    tree.children id = .ok children ↔ ∃ node, tree.nodes[id]? = some node ∧
      List.Forall₂ (fun child entry => entry.1 = child ∧ tree.nodes[child]? = some entry.2)
        node.children children := by
  have step : ∀ (child : Nat) (entry : Nat × Node S α),
      (do return (child, ← tree.node child) : Except (Failure α) _) = .ok entry ↔
        entry.1 = child ∧ tree.nodes[child]? = some entry.2 := by
    intro child entry
    rw [Attempt.bind_eq_ok_iff]
    constructor
    · rintro ⟨found, hf, he⟩
      cases he
      exact ⟨rfl, node_eq_ok_iff.mp hf⟩
    · rintro ⟨rfl, hf⟩
      exact ⟨entry.2, node_eq_ok_iff.mpr hf, rfl⟩
  rw [Tree.children, Attempt.bind_eq_ok_iff]
  simp only [node_eq_ok_iff, Attempt.mapM_eq_ok_iff, step]

/-- The children that are found are those which the node names. -/
theorem children_fst {children : List (Nat × Node S α)} (hc : tree.children id = .ok children)
    (hn : tree.nodes[id]? = some node) : children.map Prod.fst = node.children := by
  obtain ⟨node', hn', h⟩ := children_eq_ok_iff.mp hc
  rw [hn, Option.some.injEq] at hn'
  subst hn'
  clear hc hn
  generalize node.children = names at h ⊢
  induction h with
  | nil => rfl
  | cons he _ ih => rw [List.map_cons, he.1, ih]

/-- A child that is found is one of those that the node names. -/
theorem fst_mem_of_mem_children {children : List (Nat × Node S α)} {entry : Nat × Node S α}
    (hc : tree.children id = .ok children) (hn : tree.nodes[id]? = some node)
    (hm : entry ∈ children) : entry.1 ∈ node.children := by
  rw [← children_fst hc hn]
  exact List.mem_map_of_mem hm

/-- A child that is found stands in the table where the node says. -/
theorem getElem?_of_mem_children {children : List (Nat × Node S α)} {entry : Nat × Node S α}
    (hc : tree.children id = .ok children) (hm : entry ∈ children) :
    tree.nodes[entry.1]? = some entry.2 := by
  obtain ⟨node, -, h⟩ := children_eq_ok_iff.mp hc
  obtain ⟨name, -, he, hn⟩ := Attempt.exists_of_mem_right h hm
  rw [he]
  exact hn

/-- A child that the node names is found as it stands in the table. -/
theorem mem_children_of_mem {children : List (Nat × Node S α)} {child : Nat} {below : Node S α}
    (hc : tree.children id = .ok children) (hn : tree.nodes[id]? = some node)
    (named : child ∈ node.children) (there : tree.nodes[child]? = some below) :
    (child, below) ∈ children := by
  rw [← children_fst hc hn] at named
  obtain ⟨entry, hm, rfl⟩ := List.mem_map.mp named
  rw [getElem?_of_mem_children hc hm, Option.some.injEq] at there
  rw [← there]
  exact hm

/-- All children are found if they are within the table. -/
theorem children_ok (hn : tree.nodes[id]? = some node)
    (present : ∀ child ∈ node.children, child < tree.size) :
    ∃ children, tree.children id = .ok children := by
  rw [Tree.children, node_eq_ok_iff.mpr hn]
  refine Attempt.mapM_ok fun child hm => ?_
  obtain ⟨below, hb⟩ := exists_of_lt (present child hm)
  exact ⟨(child, below), Attempt.bind_eq_ok_iff.mpr ⟨below, node_eq_ok_iff.mpr hb, rfl⟩⟩

/-- In a linked table all children are found. -/
theorem Linked.children (linked : tree.Linked) (hn : tree.nodes[id]? = some node) :
    ∃ children, tree.children id = .ok children := by
  refine children_ok hn fun child hm => ?_
  obtain ⟨below, hb, -⟩ := (linked.mem_children hn child).mp hm
  exact lt_size hb

/-- As a tree grows, an expanded node keeps the children that were found. -/
theorem Extends.children {new : Tree S α} {children : List (Nat × Node S α)}
    (h : tree.Extends new) (hn : tree.nodes[id]? = some node) (he : node.expanded = true)
    (hc : tree.children id = .ok children) : ∃ children', new.children id = .ok children' ∧
      List.Forall₂ (fun before after => after.1 = before.1 ∧ Kept before.2 after.2)
        children children' := by
  obtain ⟨node', hn', found⟩ := children_eq_ok_iff.mp hc
  rw [hn, Option.some.injEq] at hn'
  subst hn'
  obtain ⟨after, ha, kept⟩ := h hn
  have key : ∃ children', List.Forall₂ (fun child (entry : Nat × Node S α) =>
      entry.1 = child ∧ new.nodes[child]? = some entry.2) node.children children' ∧
        List.Forall₂ (fun before after => after.1 = before.1 ∧ Kept before.2 after.2)
          children children' := by
    generalize node.children = names at found
    clear hc
    induction found with
    | nil => exact ⟨[], .nil, .nil⟩
    | @cons child entry _ _ head _ ih =>
      obtain ⟨rest, hr, hk⟩ := ih
      obtain ⟨below, hb, keptBelow⟩ := h head.2
      exact ⟨(child, below) :: rest, .cons ⟨rfl, hb⟩ hr, .cons ⟨head.1.symm, keptBelow⟩ hk⟩
  obtain ⟨children', hf, hk⟩ := key
  rw [← kept.children he] at hf
  exact ⟨children', children_eq_ok_iff.mpr ⟨after, ha, hf⟩, hk⟩

/-- What exploiting looks at are the visited children with their means. -/
theorem mem_candidates {children : List (Nat × Node S α)} {entry : Nat × α} :
    (entry ∈ children.filterMap fun (id, child) => child.mean?.map fun mean => (id, mean)) ↔
      ∃ child, (entry.1, child) ∈ children ∧ 0 < child.visits ∧ child.mean = entry.2 := by
  rw [List.mem_filterMap]
  constructor
  · rintro ⟨⟨name, child⟩, named, told⟩
    obtain ⟨mean, visited, rfl⟩ := Option.map_eq_some_iff.mp told
    exact ⟨child, named, Node.mean?_eq_some_iff.mp visited⟩
  · rintro ⟨child, named, visited⟩
    exact ⟨_, named, Option.map_eq_some_iff.mpr ⟨_, Node.mean?_eq_some_iff.mpr visited, rfl⟩⟩

section Picks

variable [Scalar α]

/-- Nothing is selected only below a node without children. -/
theorem select_eq_none {bias : α} (h : tree.select id bias = .ok none)
    (hn : tree.nodes[id]? = some node) : node.children = [] := by
  rw [select, Attempt.bind_eq_ok_iff] at h
  obtain ⟨above, -, h⟩ := h
  obtain ⟨children, hc, h⟩ := Attempt.bind_eq_ok_iff.mp h
  rw [← children_fst hc hn]
  have hnone := Option.map_eq_none_iff.mp (Except.ok.inj h)
  have hlead := leader_eq_none_iff.mp (Option.or_eq_none_iff.mp hnone).2
  rw [List.map_eq_nil_iff.mp hlead]
  rfl

/-- What is selected is one of the children. -/
theorem mem_of_select {bias : α} {child : Nat} (h : tree.select id bias = .ok (some child))
    (hn : tree.nodes[id]? = some node) : child ∈ node.children := by
  rw [select, Attempt.bind_eq_ok_iff] at h
  obtain ⟨above, -, h⟩ := h
  obtain ⟨children, hc, h⟩ := Attempt.bind_eq_ok_iff.mp h
  obtain ⟨entry, he, rfl⟩ := Option.map_eq_some_iff.mp (Except.ok.inj h)
  have hm : entry ∈ children.map fun entry =>
      (entry.1, entry.2.score above.visits bias) := by
    rcases Option.or_eq_some_iff.mp he with hu | ⟨-, hl⟩
    · exact List.mem_of_find?_eq_some hu
    · exact mem_of_leader hl
  obtain ⟨below, hb, rfl⟩ := List.mem_map.mp hm
  exact fst_mem_of_mem_children hc hn hb

/-- In a linked table exploring finds all that it looks at. -/
theorem Linked.select (linked : tree.Linked) (hn : tree.nodes[id]? = some node) (bias : α) :
    ∃ pick, tree.select id bias = .ok pick := by
  obtain ⟨children, hc⟩ := linked.children hn
  rw [Tree.select, node_eq_ok_iff.mpr hn, hc]
  exact ⟨_, rfl⟩

/-- Where all children are found, exploiting finds what it looks at. -/
theorem favourite_of_children {children : List (Nat × Node S α)}
    (looked : tree.children id = .ok children) : ∃ best, tree.favourite id = .ok best := by
  rw [Tree.favourite, looked]
  exact ⟨_, rfl⟩

/-- In a linked table exploiting finds all that it looks at. -/
theorem Linked.favourite (linked : tree.Linked) (hn : tree.nodes[id]? = some node) :
    ∃ best, tree.favourite id = .ok best := by
  obtain ⟨children, hc⟩ := linked.children hn
  exact favourite_of_children hc

/-- A favourite is one of the children, and has been visited. -/
theorem favourite_eq_some {best : Nat} (h : tree.favourite id = .ok (some best))
    (hn : tree.nodes[id]? = some node) :
    best ∈ node.children ∧ ∃ below, tree.nodes[best]? = some below ∧ 0 < below.visits := by
  rw [favourite, Attempt.bind_eq_ok_iff] at h
  obtain ⟨children, hc, h⟩ := h
  obtain ⟨entry, he, rfl⟩ := Option.map_eq_some_iff.mp (Except.ok.inj h)
  obtain ⟨below, hm, visited, -⟩ := mem_candidates.mp (mem_of_leader he)
  exact ⟨fst_mem_of_mem_children hc hn hm, below, getElem?_of_mem_children hc hm, visited⟩

/-- Without a favourite no child has been visited. -/
theorem favourite_eq_none {children : List (Nat × Node S α)} (h : tree.favourite id = .ok none)
    (looked : tree.children id = .ok children) : ∀ entry ∈ children, entry.2.visits = 0 := by
  rw [favourite, looked] at h
  have none := leader_eq_none_iff.mp (Option.map_eq_none_iff.mp (Except.ok.inj h))
  intro entry he
  have absent : (entry.1, entry.2.mean) ∉ ([] : List (Nat × α)) := List.not_mem_nil
  rw [← none, mem_candidates] at absent
  by_contra visited
  exact absent ⟨entry.2, he, Nat.pos_of_ne_zero visited, rfl⟩

/-- The probabilities below a node make a distribution, over something. -/
def Fair (tree : Tree S α) (tolerance : α) (id : Nat) : Prop :=
  ∃ children, tree.children id = .ok children ∧ children ≠ [] ∧
    isDistribution tolerance (children.map fun entry => entry.2.reach.getD Scalar.zero) = true

/-- An outcome is drawn only where the probabilities make a distribution, at
the cost of one draw, and it is one of the children. -/
theorem draw_eq_ok {υ : Type} [DrawSource υ α] {tolerance : α} {source : υ} {drawn : Drawn υ α}
    (h : tree.draw id tolerance source = .ok drawn) (hn : tree.nodes[id]? = some node) :
    tree.Fair tolerance id ∧ drawn.child ∈ node.children ∧
      drawn.source = (DrawSource.next (α := α) source).2 := by
  rw [draw, Attempt.bind_eq_ok_iff] at h
  obtain ⟨children, hc, h⟩ := h
  rw [← children_fst hc hn]
  dsimp only at h
  split at h
  · next last weight hlast =>
    have hmem := List.mem_of_getLast? hlast
    split at h
    · next hd =>
      rw [List.map_map] at hd
      have hne : children ≠ [] := by
        rintro rfl
        cases hmem
      have names : (children.map fun (x : Nat × Node S α) => (x.1, x.2.reach.getD Scalar.zero)).map
          Prod.fst = children.map Prod.fst := by
        rw [List.map_map]
        rfl
      refine ⟨⟨children, hc, hne, hd⟩, ?_⟩
      rw [← names]
      split at h
      · next child hr =>
        cases h
        exact ⟨mem_of_firstReaching hr, rfl⟩
      · cases h
        exact ⟨List.mem_map_of_mem hmem, rfl⟩
    · cases h
  · cases h

/-- No outcome is drawn where the probabilities make no distribution, or where
there is nothing to draw from, and this is what the failure says. -/
theorem draw_eq_error {υ : Type} [DrawSource υ α] {tolerance : α} {source : υ}
    {failure : Failure α} {children : List (Nat × Node S α)} {probabilities : List α}
    (looked : tree.children id = .ok children)
    (reaches : children.map (fun entry => entry.2.reach.getD Scalar.zero) = probabilities)
    (h : tree.draw id tolerance source = .error failure) :
    failure = .notADistribution id (Scalar.total probabilities) ∧
      (probabilities = [] ∨ isDistribution tolerance probabilities = false) := by
  have same : (children.map fun (x : Nat × Node S α) => (x.1, x.2.reach.getD Scalar.zero)).map
      Prod.snd = probabilities := by
    rw [List.map_map, ← reaches]
    rfl
  rw [draw, looked] at h
  dsimp only [bind, Except.bind] at h
  rw [same] at h
  split at h
  · split at h
    · -- once the probabilities are accepted, some outcome is drawn
      split at h <;> cases h
    · next refused =>
      cases h
      exact ⟨rfl, .inr (Bool.not_eq_true _ ▸ refused)⟩
  · next none =>
    cases h
    rw [List.getLast?_eq_none_iff] at none
    exact ⟨rfl, .inl (by rw [← same, none, List.map_nil])⟩

/-- As a tree grows, a fair node that is expanded stays fair. -/
theorem Fair.extends {new : Tree S α} {tolerance : α} (fair : tree.Fair tolerance id)
    (h : tree.Extends new) (hn : tree.nodes[id]? = some node) (he : node.expanded = true) :
    new.Fair tolerance id := by
  obtain ⟨children, hc, hne, hd⟩ := fair
  obtain ⟨children', hc', same⟩ := h.children hn he hc
  have reaches : (children'.map fun entry => entry.2.reach.getD (Scalar.zero : α)) =
      children.map fun entry => entry.2.reach.getD Scalar.zero := by
    clear hc hc' hne hd
    induction same with
    | nil => rfl
    | cons head _ ih => rw [List.map_cons, List.map_cons, head.2.reach, ih]
  refine ⟨children', hc', ?_, by rw [reaches]; exact hd⟩
  rintro rfl
  cases same
  exact hne rfl

end Picks

end Tree

end HorizonUct
