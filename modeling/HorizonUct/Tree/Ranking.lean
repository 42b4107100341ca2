import HorizonUct.Tree.Basic

/-!
# Which child comes first

Two rankings lead through a tree. The one that explores adds a bonus for
rarity to the mean return and puts what was never tried above all numbers; the
one that exploits looks at the mean return alone, and only of children that
have been visited. Both run through the children once, and the earlier of two
equals stays.

The two differ on values that are not numbers. Such a score leads only if no
score is a number; such a mean takes the place of whatever came before and
gives way to whatever comes next.
-/

namespace HorizonUct

/-- The entry that a run from left to right ends with. It holds the first one
and goes over to a later one exactly if that beats the one it holds. -/
def leader {β : Type} (beats : β → β → Bool) : List β → Option β
  | [] => none
  | first :: rest =>
    some (rest.foldl (fun held next => if beats next held then next else held) first)

/-- There is a leader unless there is no entry. -/
theorem leader_eq_none_iff {β : Type} {beats : β → β → Bool} {entries : List β} :
    leader beats entries = none ↔ entries = [] := by
  cases entries <;> simp [leader]

/-- The leader is one of the entries. -/
theorem mem_of_leader {β : Type} {beats : β → β → Bool} {entries : List β} {winner : β}
    (h : leader beats entries = some winner) : winner ∈ entries := by
  cases entries with
  | nil => simp [leader] at h
  | cons first rest =>
    simp only [leader, Option.some.injEq] at h
    subst h
    induction rest generalizing first with
    | nil => simp
    | cons next rest ih =>
      simp only [List.foldl_cons]
      split
      · exact List.mem_cons_of_mem _ (ih next)
      · rcases List.mem_cons.mp (ih first) with h | h
        · rw [h]; exact List.mem_cons_self
        · exact List.mem_cons_of_mem _ (List.mem_cons_of_mem _ h)

/-- A leader stays one when entries are replaced by others that compare alike. -/
theorem leader_map {β γ : Type} {replace : β → γ} {beats : β → β → Bool}
    {beats' : γ → γ → Bool}
    (alike : ∀ next held, beats' (replace next) (replace held) = beats next held)
    (entries : List β) :
    leader beats' (entries.map replace) = (leader beats entries).map replace := by
  cases entries with
  | nil => rfl
  | cons first rest =>
    rw [List.map_cons, leader, leader, Option.map_some, Option.some.injEq]
    induction rest generalizing first with
    | nil => rfl
    | cons next rest ih =>
      rw [List.map_cons, List.foldl_cons, List.foldl_cons, alike, ← apply_ite replace]
      exact ih _

/-- How much speaks for trying an action. -/
inductive Score (α : Type) where
  /-- The action has never been tried. -/
  | untried
  /-- The mean return with the bonus. -/
  | value (score : α)
deriving DecidableEq, Repr

namespace Score

variable {α : Type} [Scalar α]

/-- Whether an action is to be tried at once: it is untried, or its score is
beyond every finite number. -/
def isUrgent : Score α → Bool
  | .untried => true
  | .value score => Scalar.isUnbounded score

/-- Whether a score beats the one that is held: it is a number, and not at most
that one. -/
def beats : Score α → Score α → Bool
  | .untried, _ => true
  | .value _, .untried => false
  | .value score, .value held => !Scalar.le score held && !Scalar.isUndefined score

/-- A score as a double, an untried action at infinity. -/
def toFloat : Score Float → Float
  | .untried => 1 / 0
  | .value score => score

end Score

/-- The score of a node: the mean return, and the bias times the root of the
logarithm of the parent's visits over its own ones. -/
def Node.score {S α : Type} [Scalar α] (node : Node S α) (parentVisits : Nat) (bias : α) :
    Score α :=
  if node.visits = 0 then .untried
  else
    let rarity := Scalar.sqrt (Scalar.ln (Scalar.ofNat parentVisits) / Scalar.ofNat node.visits)
    .value (bias * rarity + node.mean)

namespace Tree

variable {S α : Type} [Scalar α]

/-- The child that exploring goes on with: the first urgent one, or else the
one that leads by score. -/
def select (tree : Tree S α) (id : Nat) (bias : α) : Except (Failure α) (Option Nat) := do
  let node ← tree.node id
  let children ← tree.children id
  let scored := children.map fun (id, child) => (id, child.score node.visits bias)
  let urgent := scored.find? (·.2.isUrgent)
  return (urgent.or (leader (fun next held => next.2.beats held.2) scored)).map (·.1)

/-- The child that exploiting goes on with: the visited one that leads by mean return. -/
def favourite (tree : Tree S α) (id : Nat) : Except (Failure α) (Option Nat) := do
  let children ← tree.children id
  let candidates := children.filterMap fun (id, child) => child.mean?.map fun mean => (id, mean)
  return (leader (fun next held => !Scalar.le next.2 held.2) candidates).map (·.1)

end Tree

end HorizonUct
