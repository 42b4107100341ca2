import HorizonUct.Proofs.Rollout.Record

/-!
# What a rollout leaves behind

A rollout adds nodes at the end of the table and changes nothing else that was
there, except that a node may be expanded, once, by nodes that were added. This
holds of every tree that can be put together, also of one whose levels do not
alternate because nodes, without children of their own, were put into it by
hand. The links are enough for it: they send a descent to ever later nodes, so
it counts one visit at each node of its way, and what is taken back if it breaks
off is what it has counted.
-/

namespace HorizonUct

/-- The nodes that a rollout has taught, each with its return. One that breaks
off has taught none. -/
def Rollout.taught {α : Type} : Except (Failure α) (Rollout α) → List (Nat × α)
  | .ok rollout => rollout.path
  | .error _ => []

/-- Where no index occurs twice, the entries with an index are the one there is. -/
theorem entriesAt_of_mem {α : Type} {id : Nat} {value : α} {entries : List (Nat × α)}
    (distinct : (entries.map Prod.fst).Nodup) (mem : (id, value) ∈ entries) :
    entriesAt id entries = [value] := by
  have inside : value ∈ entriesAt id entries := mem_entriesAt_iff.mpr mem
  have single : (entriesAt id entries).length ≤ 1 := by
    rw [length_entriesAt]
    exact List.nodup_iff_count.mp distinct id
  have some := List.length_pos_of_mem inside
  have one : (entriesAt id entries).length = 1 := by omega
  obtain ⟨only, he⟩ := List.length_eq_one_iff.mp one
  rw [he, List.mem_singleton] at inside
  rw [he, inside]

namespace Tree

variable {S α : Type} [Scalar α]

/-- A tree that was put together from a root: by putting nodes without children
under others, by making children, and by rollouts, in any order and with any
navigators, whatever they answer. -/
inductive Built {S α : Type} [Scalar α] : Tree S α → Prop where
  /-- The tree is a root. -/
  | planted (root : S) : Built (ofRoot root)
  /-- A node is put under another. -/
  | attached {tree : Tree S α} {parent : Nat} {child : Node S α} (built : Built tree)
      (present : parent < tree.size) (bare : child.children = []) :
      Built (tree.attach parent child).1
  /-- The children of a node are made, if the navigator can tell them. -/
  | expanded {σ : Type} [Navigator σ S α] {tree : Tree S α} (built : Built tree) (id : Nat)
      (navigator : σ) : Built (tree.expand id navigator).2
  /-- A rollout is made or breaks off. -/
  | rolled {σ υ : Type} [Navigator σ S α] [DrawSource υ α] (progress : Progress σ υ S α)
      (built : Built progress.tree) (rules : Rules S α) (start horizon : Nat) (bias : α) :
      Built (progress.rollout rules start horizon bias).2.tree

/-- Making children changes a tree in steps. -/
theorem expand_changes {σ : Type} [Navigator σ S α] (tree : Tree S α) (id : Nat) (navigator : σ) :
    Changes tree (tree.expand id navigator).2 := by
  cases hn : tree.node id with
  | error failure =>
    simp only [expand, hn]
    exact .refl
  | ok node =>
    cases he : node.expanded with
    | true =>
      simp only [expand, hn, he, if_true]
      exact .refl
    | false =>
      cases ho : node.role.offspring navigator with
      | error failure =>
        simp only [expand, hn, he, ho, Bool.false_eq_true, if_false]
        exact .refl
      | ok children =>
        have shape := Role.offspring_eq_ok ho
        simp only [expand, hn, he, ho, Bool.false_eq_true, if_false]
        exact .single (.adopt (node_eq_ok_iff.mp hn) he (fun child hc => (shape child hc).1)
          (fun child hc => (shape child hc).2) trivial)

/-- However a tree is put together, its parents and children agree. -/
theorem Built.linked {tree : Tree S α} (built : tree.Built) : tree.Linked := by
  induction built with
  | planted root => exact (layered_ofRoot root).toLinked
  | attached _ present bare ih => exact ih.attach present bare
  | expanded _ id navigator ih => exact (expand_changes _ id navigator).linked ih
  | rolled progress _ rules start horizon bias ih =>
    have rolls := progress.rolls_rollout rules start horizon bias
    exact rolls.changes.linked ih

/-- What a rollout leaves of a tree, given the nodes that it has taught. -/
structure Aftermath (before after : Tree S α) (taught : List (Nat × α)) : Prop where
  /-- Nodes are added, and what was there keeps its place. -/
  appends : before.Appends after
  /-- No node is taught twice. -/
  once : (taught.map Prod.fst).Nodup
  /-- A node that was taught has one visit more and one return more in its mean. -/
  passed : ∀ {id : Nat} {value : α}, (id, value) ∈ taught →
    ∃ node, after.nodes[id]? = some node ∧ node.visits = (before.learnt id).1 + 1 ∧
      node.mean = foldMean node.visits (before.learnt id).2 value
  /-- Any other node that was there keeps its visits and its mean. -/
  spared : ∀ {id : Nat} {old : Node S α}, before.nodes[id]? = some old →
    id ∉ taught.map Prod.fst →
      ∃ new, after.nodes[id]? = some new ∧ new.visits = old.visits ∧ new.mean = old.mean
  /-- Any other node that was added is as it was made. -/
  added : ∀ {id : Nat} {node : Node S α}, before.size ≤ id → after.nodes[id]? = some node →
    id ∉ taught.map Prod.fst → node.visits = 0 ∧ node.mean = Scalar.zero

/-- It is enough to know what each node has learnt. -/
theorem Aftermath.of_learnt {before after : Tree S α} {taught : List (Nat × α)}
    (appends : before.Appends after) (once : (taught.map Prod.fst).Nodup)
    (present : ∀ id ∈ taught.map Prod.fst, id < after.size)
    (learnt : ∀ id, after.learnt id =
      ((before.learnt id).1 + (taught.map Prod.fst).count id,
        (entriesAt id taught).foldl
          (foldMean ((before.learnt id).1 + (taught.map Prod.fst).count id))
          (before.learnt id).2)) : before.Aftermath after taught := by
  have spared : ∀ id, id ∉ taught.map Prod.fst → after.learnt id = before.learnt id := by
    intro id missed
    have none := List.count_eq_zero.mpr missed
    have empty : entriesAt id taught = [] := by
      rw [← List.length_eq_zero_iff, length_entriesAt, none]
    rw [learnt id, none, empty]
    rfl
  refine ⟨appends, once, fun {id value} mem => ?_, fun {id old} found missed => ?_,
    fun {id node} late found missed => ?_⟩
  · have named : id ∈ taught.map Prod.fst := List.mem_map_of_mem mem
    obtain ⟨node, found⟩ := exists_of_lt (present id named)
    have both := learnt id
    rw [learnt_eq found, once.count, if_pos named, entriesAt_of_mem once mem] at both
    have visits := congrArg Prod.fst both
    have mean := congrArg Prod.snd both
    dsimp only at visits mean
    exact ⟨node, found, visits, by rw [mean, visits]; rfl⟩
  · obtain ⟨new, there, -⟩ := appends.nodes found
    have both := spared id missed
    rw [learnt_eq found, learnt_eq there] at both
    exact ⟨new, there, congrArg Prod.fst both, congrArg Prod.snd both⟩
  · have both := spared id missed
    have absent : before.nodes[id]? = none := Array.getElem?_eq_none late
    rw [learnt_eq found, Tree.learnt, absent] at both
    exact ⟨congrArg Prod.fst both, congrArg Prod.snd both⟩

end Tree

namespace Fork

/-- The root with an action that the process does not have. -/
def ghost : Tree Nat ℚ := ((Tree.ofRoot 0).attach 0 (.chance 7 "ghost")).1

/-- A rollout that tries this action first, and breaks off there. -/
def scare : Except (Failure ℚ) (Rollout ℚ) × Progress (Cursor ℚ) (Replay ℚ) Nat ℚ :=
  (planner.progress ghost).rollout planner.rules 0 2 0

/-- After it a rollout that starts at the action of the process and is made. -/
def relief : Except (Failure ℚ) (Rollout ℚ) × Progress (Cursor ℚ) (Replay ℚ) Nat ℚ :=
  scare.2.rollout planner.rules 2 1 0

end Fork

end HorizonUct
