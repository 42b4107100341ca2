import HorizonUct.Policy.Walk
import HorizonUct.Proofs.Tree.Depth
import HorizonUct.Proofs.Tree.Picks

/-!
# Greedy walks come to their end

A favourite comes later in a linked table than its parent. So a walk makes
fewer moves than there are nodes, never runs out of them, and can be told.
-/

namespace HorizonUct.Tree

variable {S α : Type} [Scalar α] {tree : Tree S α} {id : Nat} {node : Node S α}

/-- Without a favourite a walk ends where it is. -/
theorem walkWithin_of_none (found : tree.nodes[id]? = some node)
    (h : tree.favourite id = .ok none) (bound : Nat) :
    tree.walkWithin bound id = .ok ⟨[node.stop id], id⟩ := by
  unfold walkWithin
  rw [node_eq_ok_iff.mpr found]
  dsimp only
  rw [h]

/-- With a favourite a walk goes on there. -/
theorem walkWithin_of_some {next bound : Nat} {rest : Walk S α}
    (found : tree.nodes[id]? = some node) (h : tree.favourite id = .ok (some next))
    (onward : tree.walkWithin bound next = .ok rest) :
    tree.walkWithin (bound + 1) id = .ok ⟨node.stop id :: rest.stops, rest.last⟩ := by
  rw [walkWithin.eq_def]
  dsimp only
  rw [node_eq_ok_iff.mpr found]
  dsimp only
  rw [h]
  dsimp only
  rw [onward]

/-- A walk that can be told ends where it is, or goes on to the favourite with
fewer moves to go. -/
theorem walkWithin_eq_ok {bound : Nat} {walk : Walk S α}
    (h : tree.walkWithin bound id = .ok walk) : ∃ node, tree.nodes[id]? = some node ∧
      ((tree.favourite id = .ok none ∧ walk = ⟨[node.stop id], id⟩) ∨
        ∃ next fewer rest, tree.favourite id = .ok (some next) ∧ fewer < bound ∧
          tree.walkWithin fewer next = .ok rest ∧
            walk = ⟨node.stop id :: rest.stops, rest.last⟩) := by
  rw [walkWithin.eq_def] at h
  dsimp only at h
  split at h
  · cases h
  · next node found =>
    refine ⟨node, node_eq_ok_iff.mp found, ?_⟩
    split at h
    · cases h
    · next favoured => exact .inl ⟨favoured, (Except.ok.inj h).symm⟩
    · cases h
    · next next fewer favoured =>
      split at h
      · cases h
      · next rest onward =>
        exact .inr ⟨next, fewer, rest, favoured, Nat.lt_succ_self fewer, onward,
          (Except.ok.inj h).symm⟩

/-- With as many moves to go as there may be later nodes, a walk comes to its
end, and all its stops are nodes of the tree. -/
theorem Linked.walkWithin (linked : tree.Linked) {bound : Nat} (here : id < tree.size)
    (enough : tree.size ≤ bound + id) : ∃ walk, tree.walkWithin bound id = .ok walk ∧
      ∀ stop ∈ walk.stops, stop.node < tree.size := by
  induction bound generalizing id with
  | zero => omega
  | succ bound ih =>
    obtain ⟨node, found⟩ := exists_of_lt here
    obtain ⟨best?, hf⟩ := linked.favourite found
    cases best? with
    | none =>
      refine ⟨_, walkWithin_of_none found hf _, fun stop h => ?_⟩
      rw [List.mem_singleton.mp h]
      exact here
    | some next =>
      obtain ⟨below, child, hc, -⟩ := favourite_eq_some hf found
      obtain ⟨-, -, -, later⟩ := linked.child found below
      obtain ⟨rest, hr, stops⟩ := ih (lt_size hc) (by omega)
      refine ⟨_, walkWithin_of_some found hf hr, fun stop h => ?_⟩
      rcases List.mem_cons.mp h with rfl | h
      · exact here
      · exact stops stop h

omit [Scalar α] in
/-- A walk whose stops are nodes of the tree can be entered in the journal. -/
theorem Linked.walkEvents (linked : tree.Linked) {walk : Walk S α}
    (stops : ∀ stop ∈ walk.stops, stop.node < tree.size) :
    ∃ events, tree.walkEvents walk = .ok events := by
  refine Attempt.filterMapM_ok fun stop h => ?_
  obtain ⟨depth, depthAt⟩ := linked.exists_depthAt (stops stop h)
  rw [depthAt.actionsBefore]
  cases stop.action <;> exact ⟨_, rfl⟩

/-- The walk from the root succeeds, and so does telling it. -/
theorem Linked.walk_ok (linked : tree.Linked) : ∃ walk events, tree.walkFrom 0 = .ok walk ∧
    tree.walkEvents walk = .ok events := by
  obtain ⟨walk, hw, stops⟩ := linked.walkWithin tree.size_pos (Nat.le_add_right tree.size 0)
  exact ⟨walk, exists_and_left.mpr ⟨hw, linked.walkEvents stops⟩⟩

end HorizonUct.Tree
