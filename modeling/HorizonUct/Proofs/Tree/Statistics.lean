import HorizonUct.Proofs.Mean
import HorizonUct.Proofs.Tree.Links
import HorizonUct.Rollout.Backup

/-!
# What a tree has learnt

The visits and the mean return of a node are looked up by its index. Where
there is no node they are those of a fresh one, so that making children
changes nothing; counting a visit, taking one back and learning a return
change the statistics of one node.
-/

namespace HorizonUct

/-- The values that entries with an index carry, in order. -/
def entriesAt {α : Type} (id : Nat) (entries : List (Nat × α)) : List α :=
  (entries.filter (·.1 = id)).map (·.2)

/-- The values at an index are those that are paired with it. -/
theorem mem_entriesAt_iff {α : Type} {id : Nat} {value : α} {entries : List (Nat × α)} :
    value ∈ entriesAt id entries ↔ (id, value) ∈ entries := by
  simp only [entriesAt, List.mem_map, List.mem_filter, decide_eq_true_eq]
  constructor
  · rintro ⟨⟨_, _⟩, ⟨mem, rfl⟩, rfl⟩
    exact mem
  · exact fun mem => ⟨(id, value), ⟨mem, rfl⟩, rfl⟩

/-- An entry with the index comes first. -/
theorem entriesAt_cons_self {α : Type} (entry : Nat × α) (rest : List (Nat × α)) :
    entriesAt entry.1 (entry :: rest) = entry.2 :: entriesAt entry.1 rest := by
  rw [entriesAt, List.filter_cons, if_pos (decide_eq_true rfl)]
  rfl

/-- An entry with another index does not count. -/
theorem entriesAt_cons_of_ne {α : Type} {id : Nat} (entry : Nat × α) (rest : List (Nat × α))
    (h : entry.1 ≠ id) : entriesAt id (entry :: rest) = entriesAt id rest := by
  rw [entriesAt, List.filter_cons, if_neg (by simpa using h)]
  rfl

/-- There are as many values at an index as it occurs. -/
theorem length_entriesAt {α : Type} (id : Nat) (entries : List (Nat × α)) :
    (entriesAt id entries).length = (entries.map Prod.fst).count id := by
  induction entries with
  | nil => rfl
  | cons entry rest ih =>
    rw [List.map_cons, List.count_cons, ← ih]
    by_cases he : entry.1 = id
    · subst he
      rw [entriesAt_cons_self, List.length_cons, beq_self_eq_true, if_pos rfl]
    · rw [entriesAt_cons_of_ne entry rest he, if_neg (by simpa using he), Nat.add_zero]

section Returns

variable {α : Type} [Scalar α]

/-- What the nodes of a way have earned, added up from the last to the first. -/
def totalOf (way : List (Nat × α)) : α :=
  way.foldr (fun entry total => total + entry.2) Scalar.zero

/-- The nodes of a way, each with what was earned from it on. -/
def returnsOf : List (Nat × α) → List (Nat × α)
  | [] => []
  | entry :: way => (entry.1, totalOf (entry :: way)) :: returnsOf way

/-- Each node of a way has its return. -/
theorem fst_returnsOf (way : List (Nat × α)) :
    (returnsOf way).map Prod.fst = way.map Prod.fst := by
  induction way with
  | nil => rfl
  | cons entry way ih => rw [returnsOf, List.map_cons, ih, List.map_cons]

end Returns

namespace Tree

variable {S α : Type} [Scalar α]

/-- The visits and the mean return of a node, or those of a fresh node. -/
def learnt (tree : Tree S α) (id : Nat) : Nat × α :=
  match tree.nodes[id]? with
  | some node => (node.visits, node.mean)
  | none => (0, Scalar.zero)

variable {tree : Tree S α} {id other : Nat}

/-- The statistics of a node that is there are its own. -/
theorem learnt_eq {node : Node S α} (h : tree.nodes[id]? = some node) :
    tree.learnt id = (node.visits, node.mean) := by
  rw [learnt, h]

/-- A root alone has learnt nothing. -/
theorem learnt_ofRoot (state : S) : (ofRoot state : Tree S α).learnt id = (0, Scalar.zero) := by
  cases id <;> rfl

/-- Making children changes no statistics. -/
theorem learnt_adopt {children : List (Node S α)} (hid : id < tree.size)
    (blank : ∀ child ∈ children, child.Blank) :
    (tree.adopt id children).learnt other = tree.learnt other := by
  cases ho : tree.nodes[other]? with
  | some old =>
    rw [learnt_eq ho, learnt_eq (adopt_old children ho)]
    split <;> rfl
  | none =>
    cases hn : (tree.adopt id children).nodes[other]? with
    | none => rw [learnt, learnt, hn, ho]
    | some found =>
      rcases adopt_cases hid hn with ⟨k, child, hk, -, rfl⟩ | ⟨old, he, -⟩
      · have fresh := blank child (List.mem_of_getElem? hk)
        rw [learnt_eq hn, learnt, ho, fresh.visits, fresh.mean]
      · rw [ho] at he
        cases he

/-- A change of one node changes no statistics elsewhere. -/
theorem learnt_modify_of_ne {change : Node S α → Node S α} (h : id ≠ other) :
    (tree.modify id change).learnt other = tree.learnt other := by
  rw [learnt, learnt, getElem?_modify, if_neg h]

/-- Counting a visit is one visit more. -/
theorem learnt_countVisit (hid : id < tree.size) :
    (tree.modify id Node.countVisit).learnt id = ((tree.learnt id).1 + 1, (tree.learnt id).2) := by
  obtain ⟨node, hn⟩ := exists_of_lt hid
  rw [learnt_eq (modify_old hn), if_pos rfl, learnt_eq hn]
  rfl

/-- Taking a visit back is one visit less. -/
theorem learnt_dropVisit :
    (tree.modify id Node.dropVisit).learnt id = ((tree.learnt id).1 - 1, (tree.learnt id).2) := by
  cases hn : tree.nodes[id]? with
  | some node =>
    rw [learnt_eq (modify_old hn), if_pos rfl, learnt_eq hn]
    rfl
  | none =>
    rw [learnt, learnt, getElem?_modify, hn]
    simp only [Option.map_none, ite_self, Nat.zero_sub]

/-- Learning a return folds it into the mean. -/
theorem learnt_foldReturn (hid : id < tree.size) (value : α) :
    (tree.modify id (·.foldReturn value)).learnt id =
      ((tree.learnt id).1, foldMean (tree.learnt id).1 (tree.learnt id).2 value) := by
  obtain ⟨node, hn⟩ := exists_of_lt hid
  rw [learnt_eq (modify_old hn), if_pos rfl, learnt_eq hn]
  rfl

/-- Taking back the visits of a trail takes one back for each time a node is on it. -/
theorem learnt_dropVisits (trail : List (Nat × α)) (tree : Tree S α) :
    (tree.dropVisits trail).learnt other =
      ((tree.learnt other).1 - (trail.map Prod.fst).count other, (tree.learnt other).2) := by
  induction trail generalizing tree with
  | nil => rfl
  | cons entry rest ih =>
    rw [dropVisits, List.foldl_cons, ← dropVisits, ih, List.map_cons, List.count_cons]
    by_cases he : entry.1 = other
    · subst he
      rw [learnt_dropVisit, beq_self_eq_true, if_pos rfl, Nat.sub_sub, Nat.add_comm 1]
    · rw [learnt_modify_of_ne he, if_neg (by simpa using he), Nat.add_zero]

/-- The first node of a way learns after all others. -/
theorem backUp_cons (tree : Tree S α) (entry : Nat × α) (way : List (Nat × α)) :
    tree.backUp (entry :: way).reverse = (tree.backUp way.reverse).add entry := by
  rw [backUp, List.reverse_cons, List.foldl_append]
  rfl

/-- The nodes that learn are those on the way, in order, each of them the sum
of the rewards from it on. -/
theorem returns_backUp (tree : Tree S α) (way : List (Nat × α)) :
    (tree.backUp way.reverse).total = totalOf way ∧
      (tree.backUp way.reverse).path = returnsOf way := by
  induction way with
  | nil => exact ⟨rfl, rfl⟩
  | cons entry way ih =>
    rw [backUp_cons, Backup.add, ih.1, ih.2]
    exact ⟨rfl, rfl⟩

/-- The nodes that learn are those on the way, in order. -/
theorem path_backUp (tree : Tree S α) (way : List (Nat × α)) :
    (tree.backUp way.reverse).path.map Prod.fst = way.map Prod.fst := by
  rw [(returns_backUp tree way).2, fst_returnsOf]

/-- Learning returns makes no nodes. -/
theorem size_backUp (tree : Tree S α) (way : List (Nat × α)) :
    (tree.backUp way.reverse).tree.size = tree.size := by
  induction way with
  | nil => rfl
  | cons entry way ih =>
    rw [backUp_cons, ← ih]
    exact size_modify _ _ _

/-- Learning returns changes statistics only. -/
theorem backUp_cases {way : List (Nat × α)} {found : Node S α}
    (h : (tree.backUp way.reverse).tree.nodes[other]? = some found) :
    ∃ old, tree.nodes[other]? = some old ∧ old.Alike found := by
  induction way generalizing found with
  | nil => exact ⟨found, h, rfl, rfl, rfl, rfl, rfl⟩
  | cons entry way ih =>
    rw [backUp_cons] at h
    obtain ⟨middle, hm, rfl⟩ := modify_cases h
    obtain ⟨old, ho, alike⟩ := ih hm
    refine ⟨old, ho, ?_⟩
    split
    · exact alike.trans (Node.alike_foldReturn _ _)
    · exact alike

/-- On a way without repetitions every node learns the one return from itself on. -/
theorem learnt_backUp {way : List (Nat × α)} (distinct : (way.map Prod.fst).Nodup)
    (present : ∀ id ∈ way.map Prod.fst, id < tree.size) :
    (tree.backUp way.reverse).tree.learnt other = ((tree.learnt other).1,
      (entriesAt other (tree.backUp way.reverse).path).foldl (foldMean (tree.learnt other).1)
        (tree.learnt other).2) := by
  induction way with
  | nil => rfl
  | cons entry way ih =>
    rw [List.map_cons, List.nodup_cons] at distinct
    have before := ih distinct.2 fun id h => present id (List.mem_cons_of_mem _ h)
    have path := path_backUp tree way
    have size := size_backUp tree way
    rw [backUp_cons]
    generalize tree.backUp way.reverse = backup at before path size ⊢
    by_cases he : entry.1 = other
    · -- the other nodes on the way come later, so this one has learnt nothing yet
      subst he
      have none : entriesAt entry.1 backup.path = [] := by
        rw [← List.length_eq_zero_iff, length_entriesAt, path, List.count_eq_zero]
        exact distinct.1
      have here : entry.1 < backup.tree.size := by
        rw [size]
        exact present entry.1 List.mem_cons_self
      rw [none, List.foldl_nil] at before
      rw [Backup.add, entriesAt_cons_self (entry.1, backup.total + entry.2), none,
        learnt_foldReturn here, before]
      rfl
    · rw [Backup.add, entriesAt_cons_of_ne (entry.1, backup.total + entry.2) _ he,
        learnt_modify_of_ne he, before]

end Tree

end HorizonUct
