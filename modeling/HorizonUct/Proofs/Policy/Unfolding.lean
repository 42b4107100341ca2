import HorizonUct.Policy.Chain
import HorizonUct.Proofs.Tree.Advice
import Mathlib.Data.Finset.Card
import Mathlib.Data.Finset.Range

/-!
# Chains trace the advice of a tree

While a chain is unrolled from a tree whose levels alternate, every situation in
it stands for a node of its own, and every row that has been filled in is that of the
favourite action, with the outcomes in order. So there are no more rows than
nodes, and the unrolling comes to its end.
-/

namespace HorizonUct

variable {S α : Type}

/-- The state that an outcome comes from, two levels up. -/
def Tree.precursor (tree : Tree S α) (id : Nat) : Option Nat := do
  let node ← tree.nodes[id]?
  let up ← node.parent
  let parent ← tree.nodes[up]?
  parent.parent

namespace Chain

variable {tree : Tree S α} {chain : Chain S α} {index : Nat}

/-- An index that names a situation is below the size. -/
theorem lt_size {here : Situation S} (h : chain.situations[index]? = some here) :
    index < chain.size :=
  (Array.getElem?_eq_some_iff.mp h).1

/-- Looking a situation up after a row was filled in. -/
theorem situations_fillRow (chain : Chain S α) (action : Option String)
    (following : List (Situation S × α)) (index : Nat) :
    (chain.fillRow action following).situations[index]? =
      if index < chain.size then chain.situations[index]?.map fun here =>
        if chain.rows.size = index then { here with action := action } else here
      else following[index - chain.size]?.map Prod.fst := by
  rw [fillRow, ← Array.getElem?_toList, Array.toList_appendList, List.getElem?_append,
    Array.length_toList, Array.size_modify, Array.getElem?_toList, Array.getElem?_modify,
    List.getElem?_map]
  by_cases hlt : index < chain.size
  · rw [if_pos hlt, if_pos (show index < chain.situations.size from hlt)]
    split
    · rfl
    · rw [Option.map_id']
  · rw [if_neg hlt, if_neg (show ¬index < chain.situations.size from hlt)]
    rfl

/-- Where no row is missing, each situation has one. -/
theorem exists_row (whole : chain.rows.size = chain.size) {here : Situation S}
    (present : chain.situations[index]? = some here) : ∃ row, chain.rows[index]? = some row := by
  have inside := lt_size present
  rw [← whole] at inside
  exact ⟨_, Array.getElem?_eq_getElem inside⟩

section Noted

variable {filled : Prop} [Decidable filled] (here : Situation S) (action : Option String)

/-- Noting an action leaves the node. -/
theorem node_noted :
    (if filled then { here with action := action } else here).node = here.node := by
  split <;> rfl

/-- Noting an action leaves the state. -/
theorem state_noted :
    (if filled then { here with action := action } else here).state = here.state := by
  split <;> rfl

end Noted

/-- A chain has as many situations more as may follow. -/
theorem size_fillRow (chain : Chain S α) (action : Option String)
    (following : List (Situation S × α)) :
    (chain.fillRow action following).size = chain.size + following.length := by
  rw [size, fillRow, ← Array.length_toList, Array.toList_appendList, List.length_append,
    Array.length_toList, Array.size_modify, List.length_map]
  rfl

/-- A chain has one row more then. -/
theorem size_rows_fillRow (chain : Chain S α) (action : Option String)
    (following : List (Situation S × α)) :
    (chain.fillRow action following).rows.size = chain.rows.size + 1 :=
  Array.size_push _

/-- What is found after a row was filled in: an old situation, perhaps with an
action now, or one of those that may follow. -/
theorem fillRow_cases {action : Option String} {following : List (Situation S × α)}
    {found : Situation S} (h : (chain.fillRow action following).situations[index]? = some found) :
    (∃ old, chain.situations[index]? = some old ∧
        found = if chain.rows.size = index then { old with action := action } else old) ∨
      ∃ k next, following[k]? = some next ∧ index = chain.size + k ∧ found = next.1 := by
  rw [situations_fillRow] at h
  split at h
  · obtain ⟨old, ho, hf⟩ := Option.map_eq_some_iff.mp h
    exact .inl ⟨old, ho, hf.symm⟩
  · next hge =>
    obtain ⟨next, hn, hf⟩ := Option.map_eq_some_iff.mp h
    exact .inr ⟨index - chain.size, next, hn, by omega, hf.symm⟩

/-- What becomes of a situation when a row is filled in. -/
theorem fillRow_old (action : Option String) (following : List (Situation S × α))
    {here : Situation S} (h : chain.situations[index]? = some here) :
    (chain.fillRow action following).situations[index]? = some
      (if chain.rows.size = index then { here with action := action } else here) := by
  rw [situations_fillRow, if_pos (lt_size h), h, Option.map_some]

/-- What rows are found after one was filled in. -/
theorem rows_fillRow_cases {action : Option String} {following : List (Situation S × α)}
    {row : List (Nat × α)} (h : (chain.fillRow action following).rows[index]? = some row) :
    (index < chain.rows.size ∧ chain.rows[index]? = some row) ∨
      (index = chain.rows.size ∧
        row = (following.zipIdx chain.size).map fun entry => (entry.2, entry.1.2)) := by
  have hlt := (Array.getElem?_eq_some_iff.mp h).1
  rw [fillRow, Array.size_push] at hlt
  rw [fillRow, Array.getElem?_push] at h
  split at h
  · next he => exact .inr ⟨he, (Option.some.inj h).symm⟩
  · exact .inl ⟨by omega, h⟩

/-- The outcomes of an action come from the state above it. -/
theorem precursor_of_children (branching : tree.Branching) {best up : Nat} {node : Node S α}
    (found : tree.nodes[best]? = some node) (parent : node.parent = some up) {other : Nat}
    (below : other ∈ node.children) : tree.precursor other = some up := by
  obtain ⟨child, hc, hp, -⟩ := branching.child found below
  rw [Tree.precursor, hc]
  dsimp only [Option.bind_eq_bind, Option.bind_some]
  rw [hp, Option.bind_some, found, Option.bind_some, parent]

/-- The outcomes of an action are states. -/
theorem states_of_children (branching : tree.Branching) {best : Nat} {node : Node S α}
    {children : List (Nat × Node S α)} (found : tree.nodes[best]? = some node)
    (chance : node.role.isDecision = false) (looked : tree.children best = .ok children) :
    ∀ entry ∈ children, entry.2.role.isDecision = true := by
  intro entry he
  have there := Tree.getElem?_of_mem_children looked he
  have named := Tree.fst_mem_of_mem_children looked found he
  obtain ⟨child, hc, -, -, flips⟩ := branching.child found named
  rw [there, Option.some.injEq] at hc
  rw [hc, flips, chance]
  rfl

/-- A row that is filled in has the weights of what may follow, in order. -/
theorem weights_of_row (following : List (Situation S × α)) (first : Nat) :
    ((following.zipIdx first).map fun entry => (entry.2, entry.1.2)).map Prod.snd =
      following.map Prod.snd := by
  have plain := congrArg (List.map Prod.snd) (List.zipIdx_map_fst first following)
  rw [List.map_map] at plain ⊢
  exact plain

/-- A row that is filled in leads to the situations that are put at the end. -/
theorem targets_of_row {following : List (Situation S × α)} {first : Nat} {entry : Nat × α}
    (h : entry ∈ (following.zipIdx first).map fun entry => (entry.2, entry.1.2)) :
    first ≤ entry.1 ∧ entry.1 < first + following.length := by
  obtain ⟨⟨next, place⟩, hm, rfl⟩ := List.mem_map.mp h
  obtain ⟨hle, hlt, -⟩ := List.mem_zipIdx hm
  exact ⟨hle, hlt⟩

section Advice

variable [Scalar α]

/-- The outcomes of an action, being states, are unrolled in order. -/
theorem unrolled_of_states {children : List (Nat × Node S α)}
    (states : ∀ entry ∈ children, entry.2.role.isDecision = true) :
    List.Forall₂ (fun next entry => next.1.node = entry.1 ∧
      next.2 = entry.2.reach.getD Scalar.zero ∧ entry.2.role = .decision next.1.state)
        (unrolled children) children := by
  induction children with
  | nil => exact .nil
  | cons entry rest ih =>
    obtain ⟨state, role⟩ := Role.eq_decision (states entry List.mem_cons_self)
    have head : unrolled (entry :: rest) =
        (⟨state, entry.1, none⟩, entry.2.reach.getD Scalar.zero) :: unrolled rest := by
      rw [unrolled, List.filterMap_cons]
      dsimp only
      rw [role]
      rfl
    rw [head]
    exact .cons ⟨rfl, rfl, role⟩ (ih fun other h => states other (List.mem_cons_of_mem _ h))

/-- A row is what a tree advises in a situation of a chain with so many of them. -/
inductive Advised (tree : Tree S α) (size : Nat) (here : Situation S) (row : List (Nat × α)) :
    Prop where
  /-- There is no favourite, and the row is empty. -/
  | nothing (favoured : tree.favourite here.node = .ok none) (taken : here.action = none)
      (empty : row = [])
  /-- The row has the outcomes of the favourite in order, and leads to situations of the chain. -/
  | favourite {best place : Nat} {node : Node S α} {label : String}
      {children : List (Nat × Node S α)} (favoured : tree.favourite here.node = .ok (some best))
      (found : tree.nodes[best]? = some node) (parent : node.parent = some here.node)
      (visited : 0 < node.visits) (chance : node.role = .chance place label)
      (taken : here.action = some label) (looked : tree.children best = .ok children)
      (weights : row.map Prod.snd = children.map fun entry => entry.2.reach.getD Scalar.zero)
      (targets : ∀ entry ∈ row, entry.1 < size)

/-- What was advised in a smaller chain is so in a larger one. -/
theorem Advised.mono {size more : Nat} {here : Situation S} {row : List (Nat × α)}
    (advised : Advised tree size here row) (h : size ≤ more) : Advised tree more here row := by
  cases advised with
  | nothing favoured taken empty => exact .nothing favoured taken empty
  | favourite favoured found parent visited chance taken looked weights targets =>
    exact .favourite favoured found parent visited chance taken looked weights
      fun entry he => Nat.lt_of_lt_of_le (targets entry he) h

/-- A chain that traces a tree, perhaps with rows still missing. -/
structure Traces (tree : Tree S α) (chain : Chain S α) : Prop where
  /-- It starts in its first situation. -/
  start : chain.start = 0
  /-- The first situation stands for the root. -/
  root : ∃ here, chain.situations[0]? = some here ∧ here.node = 0
  /-- There are no more rows than situations. -/
  rows_le : chain.rows.size ≤ chain.size
  /-- Each situation stands for a node that has its state. -/
  decisions : ∀ {index : Nat} {here : Situation S}, chain.situations[index]? = some here →
    ∃ node, tree.nodes[here.node]? = some node ∧ node.role = .decision here.state
  /-- Each later situation comes from one whose row has been filled in. -/
  origin : ∀ {index : Nat} {here : Situation S}, chain.situations[index]? = some here →
    0 < index → ∃ source before, source < chain.rows.size ∧
      chain.situations[source]? = some before ∧ tree.precursor here.node = some before.node
  /-- No two situations stand for one node. -/
  distinct : ∀ {i j : Nat} {here there : Situation S}, chain.situations[i]? = some here →
    chain.situations[j]? = some there → here.node = there.node → i = j
  /-- Each row is what the tree advises in its situation. -/
  advised : ∀ {index : Nat} {row : List (Nat × α)}, chain.rows[index]? = some row →
    ∃ here, chain.situations[index]? = some here ∧ Advised tree chain.size here row

/-- The row of a situation is what the tree advises there. -/
theorem Traces.advised_at (traces : Traces tree chain) {here : Situation S}
    {row : List (Nat × α)} (present : chain.situations[index]? = some here)
    (listed : chain.rows[index]? = some row) : Advised tree chain.size here row := by
  obtain ⟨here', present', advised⟩ := traces.advised listed
  rw [present, Option.some.injEq] at present'
  rw [present']
  exact advised

/-- The chain of a root alone traces any tree of that root. -/
theorem traces_ofState {state : S} (role : tree.root.role = .decision state) :
    Traces tree (ofState state) := by
  have only : ∀ {index : Nat} {here : Situation S},
      (ofState state : Chain S α).situations[index]? = some here →
        index = 0 ∧ here = ⟨state, 0, none⟩ := by
    intro index here h
    have hlt : index < 1 := lt_size h
    obtain rfl : index = 0 := by omega
    exact ⟨rfl, (Option.some.inj h).symm⟩
  refine ⟨rfl, ⟨_, rfl, rfl⟩, Nat.zero_le _, ?_, ?_, ?_, ?_⟩
  · intro index here h
    obtain ⟨-, rfl⟩ := only h
    exact ⟨tree.root, Tree.getElem?_root tree, role⟩
  · intro index here h hpos
    have := (only h).1
    omega
  · intro i j here there hi hj _
    rw [(only hi).1, (only hj).1]
  · intro index row h
    cases (Array.getElem?_eq_some_iff.mp h).1

/-- What comes from a situation whose row is missing stands for other nodes
than the situations that are there. -/
theorem Traces.node_ne (traces : Traces tree chain) {here old next : Situation S}
    (missing : chain.situations[chain.rows.size]? = some here)
    (came : tree.precursor next.node = some here.node)
    (found : chain.situations[index]? = some old) (branching : tree.Branching) :
    old.node ≠ next.node := by
  intro same
  rw [← same] at came
  rcases Nat.eq_zero_or_pos index with rfl | hpos
  · -- nothing lies above the root
    obtain ⟨first, hf, hr⟩ := traces.root
    rw [found, Option.some.injEq] at hf
    rw [hf, hr, Tree.precursor, Tree.getElem?_root] at came
    dsimp only [Option.bind_eq_bind, Option.bind_some] at came
    rw [branching.parent_root] at came
    cases came
  · obtain ⟨source, before, hlt, hb, hc⟩ := traces.origin found hpos
    rw [came, Option.some.injEq] at hc
    have := traces.distinct missing hb hc
    omega

/-- After the missing row was filled in still no two situations stand for one
node, if no two of those that may follow do. -/
theorem Traces.distinct_fillRow (traces : Traces tree chain) (branching : tree.Branching)
    {here : Situation S} (missing : chain.situations[chain.rows.size]? = some here)
    {action : Option String} {following : List (Situation S × α)}
    (came : ∀ next ∈ following, tree.precursor next.1.node = some here.node)
    (apart : (following.map fun next => next.1.node).Nodup) {i j : Nat}
    {first second : Situation S}
    (hi : (chain.fillRow action following).situations[i]? = some first)
    (hj : (chain.fillRow action following).situations[j]? = some second)
    (same : first.node = second.node) : i = j := by
  rcases fillRow_cases hi with ⟨old, ho, rfl⟩ | ⟨k, next, hn, rfl, rfl⟩ <;>
    rcases fillRow_cases hj with ⟨old', ho', rfl⟩ | ⟨k', next', hn', rfl, rfl⟩
  · rw [node_noted, node_noted] at same
    exact traces.distinct ho ho' same
  · rw [node_noted] at same
    have came' := came next' (List.mem_of_getElem? hn')
    exact (traces.node_ne missing came' ho branching same).elim
  · rw [node_noted] at same
    have came' := came next (List.mem_of_getElem? hn)
    exact (traces.node_ne missing came' ho' branching same.symm).elim
  · have hk : k < (following.map fun next => next.1.node).length := by
      rw [List.length_map]
      exact (List.getElem?_eq_some_iff.mp hn).1
    have hkk : k = k' := by
      refine (List.getElem?_inj hk apart).mp ?_
      rw [List.getElem?_map, List.getElem?_map, hn, hn', Option.map_some, Option.map_some, same]
    rw [hkk]

/-- Filling in the missing row as advised goes on tracing the tree. -/
theorem Traces.fillRow (traces : Traces tree chain) (branching : tree.Branching)
    {here : Situation S} (missing : chain.situations[chain.rows.size]? = some here)
    {action : Option String} {following : List (Situation S × α)}
    (states : ∀ next ∈ following, ∃ node, tree.nodes[next.1.node]? = some node ∧
      node.role = .decision next.1.state)
    (came : ∀ next ∈ following, tree.precursor next.1.node = some here.node)
    (apart : (following.map fun next => next.1.node).Nodup)
    (advised : Advised tree (chain.size + following.length) { here with action := action }
      ((following.zipIdx chain.size).map fun entry => (entry.2, entry.1.2))) :
    Traces tree (chain.fillRow action following) := by
  have present := lt_size missing
  refine ⟨traces.start, ?_, ?_, ?_, ?_, traces.distinct_fillRow branching missing came apart, ?_⟩
  · obtain ⟨first, hf, hr⟩ := traces.root
    exact ⟨_, fillRow_old _ _ hf, by rw [node_noted, hr]⟩
  · rw [size_rows_fillRow, size_fillRow]
    omega
  · intro index found h
    rcases fillRow_cases h with ⟨old, ho, rfl⟩ | ⟨k, next, hn, -, rfl⟩
    · rw [node_noted, state_noted]
      exact traces.decisions ho
    · exact states next (List.mem_of_getElem? hn)
  · intro index found h hpos
    rw [size_rows_fillRow]
    rcases fillRow_cases h with ⟨old, ho, rfl⟩ | ⟨k, next, hn, -, rfl⟩
    · obtain ⟨source, before, hlt, hb, hc⟩ := traces.origin ho hpos
      exact ⟨source, _, Nat.lt_succ_of_lt hlt, fillRow_old _ _ hb,
        by rw [node_noted, node_noted, hc]⟩
    · exact ⟨chain.rows.size, _, Nat.lt_succ_self _, fillRow_old _ _ missing,
        by rw [node_noted, came next (List.mem_of_getElem? hn)]⟩
  · intro index row h
    rw [size_fillRow]
    rcases rows_fillRow_cases h with ⟨hlt, ho⟩ | ⟨rfl, rfl⟩
    · obtain ⟨old, hs, advice⟩ := traces.advised ho
      have hne : chain.rows.size ≠ index := by omega
      have kept := fillRow_old action following hs
      rw [if_neg hne] at kept
      exact ⟨old, kept, advice.mono (Nat.le_add_right _ _)⟩
    · have kept := fillRow_old action following missing
      rw [if_pos rfl] at kept
      exact ⟨_, kept, advised⟩

/-- Filling in the outcomes of a visited favourite goes on tracing the tree. -/
theorem Traces.fillRow_favourite (traces : Traces tree chain) (branching : tree.Branching)
    {here : Situation S} (missing : chain.situations[chain.rows.size]? = some here)
    {best place : Nat} {node : Node S α} {label : String} {children : List (Nat × Node S α)}
    (favoured : tree.favourite here.node = .ok (some best))
    (found : tree.nodes[best]? = some node) (parent : node.parent = some here.node)
    (visited : 0 < node.visits) (chance : node.role = .chance place label)
    (looked : tree.children best = .ok children) :
    Traces tree (chain.fillRow (some label) (unrolled children)) := by
  have each := unrolled_of_states (states_of_children branching found (by rw [chance]; rfl) looked)
  have nodes : (unrolled children).map (fun next => next.1.node) = children.map Prod.fst :=
    Attempt.map_eq_map (each.imp fun _ _ h => h.1)
  have weights : (unrolled children).map Prod.snd =
      children.map fun entry => entry.2.reach.getD Scalar.zero :=
    Attempt.map_eq_map (each.imp fun _ _ h => h.2.1)
  refine traces.fillRow branching missing ?_ ?_ ?_ ?_
  · intro next hn
    obtain ⟨entry, hm, node, -, state⟩ := Attempt.exists_of_mem_left each hn
    exact ⟨entry.2, node ▸ Tree.getElem?_of_mem_children looked hm, state⟩
  · intro next hn
    obtain ⟨entry, hm, node, -, -⟩ := Attempt.exists_of_mem_left each hn
    have below := Tree.fst_mem_of_mem_children looked found hm
    exact precursor_of_children branching found parent (node ▸ below)
  · rw [nodes, Tree.children_fst looked found]
    exact branching.once found
  · exact .favourite favoured found parent visited chance rfl looked
      ((weights_of_row _ _).trans weights) fun entry he => (targets_of_row he).2

/-- With a favourite the next row has its outcomes. -/
theorem fillNext_of_favourite {here : Situation S} {best : Nat} {node : Node S α}
    {children : List (Nat × Node S α)} (missing : chain.situations[chain.rows.size]? = some here)
    (favoured : tree.favourite here.node = .ok (some best))
    (found : tree.nodes[best]? = some node) (looked : tree.children best = .ok children) :
    chain.fillNext tree =
      .ok (some (chain.fillRow node.role.label? (unrolled children))) := by
  rw [Chain.fillNext, missing]
  refine Attempt.bind_eq_ok_iff.mpr ⟨some best, favoured, ?_⟩
  refine Attempt.bind_eq_ok_iff.mpr ⟨node, Tree.node_eq_ok_iff.mpr found, ?_⟩
  exact Attempt.bind_eq_ok_iff.mpr ⟨children, looked, rfl⟩

/-- Filling in the next row succeeds: either no row is missing, or one is
filled in as the tree advises. -/
theorem Traces.fillNext (traces : Traces tree chain) (branching : tree.Branching) :
    (chain.rows.size = chain.size ∧ chain.fillNext tree = .ok none) ∨
      ∃ next, chain.fillNext tree = .ok (some next) ∧ Traces tree next ∧
        next.rows.size = chain.rows.size + 1 := by
  cases hs : chain.situations[chain.rows.size]? with
  | none =>
    have hge := Array.getElem?_eq_none_iff.mp hs
    have hle := traces.rows_le
    rw [Chain.fillNext, hs]
    exact .inl ⟨Nat.le_antisymm hle hge, rfl⟩
  | some here =>
    right
    obtain ⟨node, found, role⟩ := traces.decisions hs
    obtain ⟨best?, hf⟩ := branching.favourite_ok found
    cases best? with
    | none =>
      refine ⟨chain.fillRow none [], ?_, ?_, size_rows_fillRow _ _ _⟩
      · rw [Chain.fillNext, hs]
        exact Attempt.bind_eq_ok_iff.mpr ⟨none, hf, rfl⟩
      · exact traces.fillRow branching hs nofun nofun .nil (.nothing hf rfl rfl)
    | some best =>
      obtain ⟨action, place, label, children, -, ha, parent, visited, chance, hc⟩ :=
        branching.favourite found (by rw [role]; rfl) hf
      refine ⟨chain.fillRow (some label) (unrolled children), ?_, ?_, size_rows_fillRow _ _ _⟩
      · rw [fillNext_of_favourite hs hf ha hc, chance]
        rfl
      · exact traces.fillRow_favourite branching hs hf ha parent visited chance hc

/-- A chain that traces a tree has no more situations than the tree has nodes. -/
theorem Traces.size_le (traces : Traces tree chain) : chain.size ≤ tree.size := by
  have found : ∀ {index : Nat}, index < chain.size →
      ∃ here, chain.situations[index]? = some here :=
    fun h => ⟨_, Array.getElem?_eq_getElem h⟩
  have key := Finset.card_le_card_of_injOn
    (fun index => (chain.situations[index]?.map Situation.node).getD 0)
    (s := Finset.range chain.size) (t := Finset.range tree.size) ?_ ?_
  · rwa [Finset.card_range, Finset.card_range] at key
  · intro index h
    obtain ⟨here, hh⟩ := found (Finset.mem_range.mp h)
    obtain ⟨node, hn, -⟩ := traces.decisions hh
    dsimp only
    rw [hh]
    exact Finset.mem_coe.mpr (Finset.mem_range.mpr (Tree.lt_size hn))
  · intro i hi j hj same
    obtain ⟨here, hh⟩ := found (Finset.mem_range.mp hi)
    obtain ⟨there, ht⟩ := found (Finset.mem_range.mp hj)
    dsimp only at same
    rw [hh, ht] at same
    exact traces.distinct hh ht same

/-- When no row is missing, filling in is done. -/
theorem fill_of_none (h : chain.fillNext tree = .ok none) (bound : Nat) :
    fill tree bound chain = .ok chain := by
  unfold Chain.fill
  rw [h]

/-- When a row is missing, filling in goes on after it. -/
theorem fill_of_some {next : Chain S α} (h : chain.fillNext tree = .ok (some next)) (bound : Nat) :
    fill tree (bound + 1) chain = fill tree bound next := by
  rw [Chain.fill.eq_def]
  dsimp only
  rw [h]

/-- With as many steps to go as rows may be missing, filling in comes to its
end, and then none is missing. -/
theorem Traces.fill (branching : tree.Branching) {bound : Nat} (traces : Traces tree chain)
    (enough : tree.size ≤ bound + chain.rows.size) : ∃ last, fill tree bound chain = .ok last ∧
      Traces tree last ∧ last.rows.size = last.size := by
  induction bound generalizing chain with
  | zero =>
    have hle := traces.size_le
    rcases traces.fillNext branching with ⟨full, hn⟩ | ⟨next, hn, more, rows⟩
    · exact ⟨chain, fill_of_none hn _, traces, full⟩
    · have hle' := more.size_le
      have hrows := more.rows_le
      omega
  | succ bound ih =>
    rcases traces.fillNext branching with ⟨full, hn⟩ | ⟨next, hn, more, rows⟩
    · exact ⟨chain, fill_of_none hn _, traces, full⟩
    · obtain ⟨last, hl, whole⟩ := ih more (by omega)
      exact ⟨last, (fill_of_some hn bound).trans hl, whole⟩

/-- A tree whose levels alternate unrolls to a chain that traces it, with no row missing. -/
theorem ofTree_of_branching (branching : tree.Branching) : ∃ chain, ofTree tree = .ok chain ∧
    Traces tree chain ∧ chain.rows.size = chain.size := by
  obtain ⟨state, role⟩ := Role.eq_decision branching.decision_root
  obtain ⟨chain, hc, whole⟩ := (traces_ofState role).fill branching (Nat.le_add_right tree.size _)
  refine ⟨chain, ?_, whole⟩
  rw [ofTree, role]
  exact hc

/-- A layered tree unrolls to a chain that traces it, with no row missing. -/
theorem ofTree_ok (layered : tree.Layered) : ∃ chain, ofTree tree = .ok chain ∧
    Traces tree chain ∧ chain.rows.size = chain.size :=
  ofTree_of_branching layered.branching

end Advice

end Chain

end HorizonUct
