import HorizonUct.Proofs.Rollout.Growth

/-!
# Trees grown by rollouts

A tree is planted as a root and then used by rollouts, one after the other,
each of which starts at any node, with any navigator that is admitted, any
source, any rules and any bias. What came of each of them is kept on record,
and a rollout that broke off leaves its tree to the next one.
-/

namespace HorizonUct

/-- The rollouts that were made, out of all that were tried. -/
def Rollout.made {α : Type} (outcomes : List (Except (Failure α) (Rollout α))) : List (Rollout α) :=
  outcomes.filterMap Except.toOption

/-- Rollouts that were all made are what was made of them. -/
theorem Rollout.made_map_ok {α : Type} (rollouts : List (Rollout α)) :
    Rollout.made (rollouts.map .ok) = rollouts := by
  rw [Rollout.made, List.filterMap_map]
  exact List.filterMap_some

/-- A rollout that breaks off is not among those that were made. -/
theorem Rollout.made_append_error {α : Type} (outcomes : List (Except (Failure α) (Rollout α)))
    (failure : Failure α) :
    Rollout.made (outcomes ++ [.error failure]) = Rollout.made outcomes := by
  rw [Rollout.made, List.filterMap_append]
  exact List.append_nil _

/-- A rollout that is made is the last of those that were. -/
theorem Rollout.made_append_ok {α : Type} (outcomes : List (Except (Failure α) (Rollout α)))
    (rollout : Rollout α) :
    Rollout.made (outcomes ++ [.ok rollout]) = Rollout.made outcomes ++ [rollout] :=
  List.filterMap_append

namespace Tree

/-- A tree that was grown from a root by rollouts with navigators of one kind,
and what came of each rollout. -/
inductive Grown {σ S α : Type} [Navigator σ S α] [Scalar α] (kind : σ → Prop) (root : S) :
    List (Except (Failure α) (Rollout α)) → Tree S α → Prop where
  /-- No rollout has been tried yet. -/
  | planted : Grown kind root [] (ofRoot root)
  /-- One more rollout is tried. -/
  | rolled {υ : Type} [DrawSource υ α] {outcomes : List (Except (Failure α) (Rollout α))}
      (progress : Progress σ υ S α) (rules : Rules S α) (start horizon : Nat) (bias : α)
      (grown : Grown kind root outcomes progress.tree) (admitted : kind progress.navigator) :
      Grown kind root (outcomes ++ [(progress.rollout rules start horizon bias).1])
        (progress.rollout rules start horizon bias).2.tree

section Preservation

variable {σ S α : Type} [Navigator σ S α] [Scalar α] {kind : σ → Prop} {at_ : σ → S → Prop}
variable {root : S} {outcomes : List (Except (Failure α) (Rollout α))} {tree : Tree S α}

/-- Whatever steps of growing keep holds of every tree that was grown. -/
theorem Grown.steps (tracks : Tracks kind at_) (grown : Grown kind root outcomes tree) :
    Steps (Told at_) (ofRoot root) tree := by
  induction grown with
  | planted => exact .refl
  | rolled progress rules start horizon bias _ admitted ih =>
    have rolls := progress.rolls_rollout rules start horizon bias
    exact ih.trans (rolls.steps tracks (ih.layered (layered_ofRoot root)) admitted).1

/-- A tree that was grown is layered. -/
theorem Grown.layered (grown : Grown kind root outcomes tree) : tree.Layered := by
  induction grown with
  | planted => exact layered_ofRoot root
  | rolled progress rules start horizon bias _ _ ih =>
    have rolls := progress.rolls_rollout rules start horizon bias
    exact rolls.changes.layered ih

/-- The root of a tree that was grown stands for the state it was planted in. -/
theorem Grown.role_root (grown : Grown kind root outcomes tree) (tracks : Tracks kind at_) :
    tree.root.role = .decision root :=
  (grown.steps tracks).extends.role_root

end Preservation

end Tree

end HorizonUct
