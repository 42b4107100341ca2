import HorizonUct.Proofs.Exact
import HorizonUct.Proofs.Tree.Picks
import Mathlib.Algebra.Order.Ring.Int
import Mathlib.Data.Prod.Lex

/-!
# Nothing is ahead of the favourite

Exploiting runs through the means and lets go of the one that it holds for any
that is not at most that one. Where comparisons put the means in order, none
of them is above the one that it ends with. Exact numbers are in order, and so
are doubles as far as they are numbers: by sign first, then by exponent, and by
mantissa last.
-/

namespace HorizonUct

namespace Scalar

/-- Comparisons put the numbers of a carrier in order. -/
structure Ordered (α : Type) [Scalar α] : Prop where
  /-- Of two numbers one is at most the other. -/
  total : ∀ {x y : α}, isUndefined x = false → isUndefined y = false →
    le x y = true ∨ le y x = true
  /-- Being at most another value carries over from value to value. -/
  trans : ∀ {x y z : α}, le x y = true → le y z = true → le x z = true
  /-- What is at most another value does not exceed it. -/
  not_lt : ∀ {x y : α}, le x y = true → lt y x = false

/-- Exact numbers are in order. -/
theorem ordered_exact {K : Type} [Field K] [LinearOrder K] (ln sqrt : K → K) :
    @Ordered K (.exact ln sqrt) := by
  let _ := Scalar.exact ln sqrt
  refine ⟨fun {x y} _ _ => ?_, fun h h' => ?_, fun h => ?_⟩
  · exact (le_total x y).imp decide_eq_true decide_eq_true
  · exact decide_eq_true ((of_decide_eq_true h).trans (of_decide_eq_true h'))
  · exact decide_eq_false (not_lt_of_ge (of_decide_eq_true h))

section Binary64

open Float.Model (UnpackedFloat)

/-- The place of a double among all of them: first those below nought, of which
the greater exponent and then the greater mantissa comes first, and last those
above it, the other way round. -/
def rank : UnpackedFloat → ℤ ×ₗ ℤ ×ₗ ℤ
  | .infinity .negative => toLex (-2, toLex (0, 0))
  | .finite .negative mantissa exponent _ => toLex (-1, toLex (-exponent, -mantissa))
  | .zero _ | .notANumber => toLex (0, toLex (0, 0))
  | .finite .positive mantissa exponent _ => toLex (1, toLex (exponent, mantissa))
  | .infinity .positive => toLex (2, toLex (0, 0))

/-- Pairs are compared by what comes first, and then by what comes last. -/
theorem compare_toLex {β γ : Type} [LinearOrder β] [LinearOrder γ] (first first' : β)
    (last last' : γ) : compare (toLex (first, last)) (toLex (first', last')) =
      (compare first first').then (compare last last') := by
  rw [Prod.Lex.compare_def]
  rfl

/-- Opposites compare the other way round. -/
theorem compare_neg (m n : ℤ) : compare (-m) (-n) = (compare m n).swap := by
  have reverses : StrictAnti fun k : ℤ => -k := fun _ _ h => neg_lt_neg h
  calc compare (-m) (-n) = cmp (-m) (-n) := (cmp_eq_compare _ _).symm
    _ = cmp n m := reverses.cmp_map_eq m n
    _ = (cmp m n).swap := (cmp_swap m n).symm
    _ = (compare m n).swap := congrArg Ordering.swap (cmp_eq_compare m n)

/-- Counts compare like the numbers that they are. -/
theorem compare_cast (m n : ℕ) : compare (m : ℤ) (n : ℤ) = compare m n := by
  have keeps : StrictMono fun k : ℕ => (k : ℤ) := fun _ _ h => Int.ofNat_lt.mpr h
  calc compare (m : ℤ) (n : ℤ) = cmp (m : ℤ) (n : ℤ) := (cmp_eq_compare _ _).symm
    _ = cmp m n := keeps.cmp_map_eq m n
    _ = compare m n := cmp_eq_compare m n

/-- Doubles that are numbers compare by their place. -/
theorem compare_eq_rank {x y : UnpackedFloat} (hx : x ≠ .notANumber) (hy : y ≠ .notANumber) :
    x.compare y = some (compare (rank x) (rank y)) := by
  rcases x with (_ | _) | _ | _ | ⟨_ | _, m, e, _⟩ <;>
    rcases y with (_ | _) | _ | _ | ⟨_ | _, m', e', _⟩ <;>
    first
    | exact (hx rfl).elim
    | exact (hy rfl).elim
    | refine congrArg some ((compare_toLex _ _ _ _).trans ?_).symm
  -- unless both are finite and on the same side of nought, that decides
  any_goals rfl
  · rw [compare_toLex, compare_neg e, compare_neg m, compare_cast, ← Ordering.swap_then]
    rfl
  · rw [compare_toLex, compare_cast]
    rfl

/-- What is at most anything is a number, and so is what that is at most. -/
theorem numbers_of_le {x y : UnpackedFloat} (h : x.le y = true) :
    x ≠ .notANumber ∧ y ≠ .notANumber := by
  constructor
  · rintro rfl
    exact Bool.false_ne_true h
  · rintro rfl
    cases x <;> exact Bool.false_ne_true h

/-- A number is at most another one if that does not come before it. -/
theorem le_iff_rank {x y : UnpackedFloat} (hx : x ≠ .notANumber) (hy : y ≠ .notANumber) :
    x.le y = true ↔ rank x ≤ rank y := by
  rw [UnpackedFloat.le, compare_eq_rank hx hy, Option.any_some, Ordering.isLE_iff_ne_gt]
  exact compare_le_iff_le

/-- A number is less than another one if it comes before that. -/
theorem lt_iff_rank {x y : UnpackedFloat} (hx : x ≠ .notANumber) (hy : y ≠ .notANumber) :
    x.lt y = true ↔ rank x < rank y := by
  rw [UnpackedFloat.lt, compare_eq_rank hx hy, beq_iff_eq, Option.some.injEq]
  exact compare_lt_iff_lt

/-- Doubles are in order as far as they are numbers. -/
theorem ordered_binary64 (ln : Float → Float) : @Ordered Float (.binary64 ln) := by
  let _ := Scalar.binary64 ln
  -- comparisons of doubles are those of what they unpack to
  have le_iff : ∀ {x y : Float}, le x y = true ↔ x.toModel.unpack.le y.toModel.unpack = true :=
    decide_eq_true_iff.trans decide_eq_true_iff
  have lt_iff : ∀ {x y : Float}, lt x y = true ↔ x.toModel.unpack.lt y.toModel.unpack = true :=
    decide_eq_true_iff.trans decide_eq_true_iff
  have number : ∀ {x : Float}, isUndefined x = false → x.toModel.unpack ≠ .notANumber := by
    intro x defined
    rw [isUndefined, Bool.not_eq_false'] at defined
    exact (numbers_of_le (le_iff.mp defined)).1
  refine ⟨fun hx hy => ?_, fun h h' => ?_, fun h => ?_⟩
  · rw [le_iff, le_iff, le_iff_rank (number hx) (number hy), le_iff_rank (number hy) (number hx)]
    exact le_total _ _
  · rw [le_iff] at h h' ⊢
    obtain ⟨hx, hy⟩ := numbers_of_le h
    have hz := (numbers_of_le h').2
    rw [le_iff_rank hx hy] at h
    rw [le_iff_rank hy hz] at h'
    exact (le_iff_rank hx hz).mpr (h.trans h')
  · rw [le_iff] at h
    obtain ⟨hx, hy⟩ := numbers_of_le h
    rw [le_iff_rank hx hy] at h
    rw [← Bool.not_eq_true, lt_iff, lt_iff_rank hy hx]
    exact not_lt_of_ge h

end Binary64

end Scalar

/-- Where entries are in order and equals give way to the earlier one, none is
ahead of the leader. -/
theorem le_of_leader {β : Type} {le : β → β → Bool} (number : β → Prop)
    (total : ∀ {x y : β}, number x → number y → le x y = true ∨ le y x = true)
    (trans : ∀ {x y z : β}, le x y = true → le y z = true → le x z = true) {entries : List β}
    {winner : β} (numbers : ∀ entry ∈ entries, number entry)
    (h : leader (fun next held => !le next held) entries = some winner) :
    ∀ entry ∈ entries, le entry winner = true := by
  cases entries with
  | nil => cases h
  | cons first rest =>
    rw [leader, Option.some.injEq] at h
    subst h
    rw [List.forall_mem_cons] at numbers
    obtain ⟨here, numbers⟩ := numbers
    -- the entry that is held stays behind the last one
    rw [List.forall_mem_cons]
    induction rest generalizing first with
    | nil =>
      refine ⟨(total here here).elim id id, fun entry he => ?_⟩
      cases he
    | cons next rest ih =>
      rw [List.forall_mem_cons] at numbers
      rw [List.foldl_cons, List.forall_mem_cons]
      cases beaten : le next first with
      | true =>
        obtain ⟨held, others⟩ := ih first here numbers.2
        exact ⟨held, trans beaten held, others⟩
      | false =>
        obtain ⟨held, others⟩ := ih next numbers.1 numbers.2
        have behind : le first next = true := by simpa [beaten] using total numbers.1 here
        exact ⟨trans behind held, held, others⟩

namespace Tree

variable {S α : Type} [Scalar α] {tree : Tree S α} {id best : Nat}

/-- Where means are in order, that of no visited child is above that of the favourite. -/
theorem le_favourite (ordered : Scalar.Ordered α) {children : List (Nat × Node S α)}
    (looked : tree.children id = .ok children)
    (numbers : ∀ entry ∈ children, 0 < entry.2.visits → Scalar.isUndefined entry.2.mean = false)
    (favoured : tree.favourite id = .ok (some best)) : ∃ action, (best, action) ∈ children ∧
      ∀ entry ∈ children, 0 < entry.2.visits → Scalar.le entry.2.mean action.mean = true := by
  rw [favourite, looked] at favoured
  obtain ⟨winner, led, rfl⟩ := Option.map_eq_some_iff.mp (Except.ok.inj favoured)
  obtain ⟨action, named, -, mean⟩ := mem_candidates.mp (mem_of_leader led)
  refine ⟨action, named, fun entry he visited => ?_⟩
  have behind := le_of_leader (fun entry => Scalar.isUndefined entry.2 = false)
    (fun hx hy => ordered.total hx hy) (fun h h' => ordered.trans h h') ?_ led
      (entry.1, entry.2.mean) (mem_candidates.mpr ⟨entry.2, he, visited, rfl⟩)
  · rw [mean]
    exact behind
  · intro entry he
    obtain ⟨child, named, visited, mean⟩ := mem_candidates.mp he
    exact mean ▸ numbers _ named visited

/-- Where means are in order and those of the visited children are numbers, none
of these exceeds that of the favourite. -/
theorem Linked.not_lt_favourite (linked : tree.Linked) (ordered : Scalar.Ordered α)
    {node child : Node S α} (found : tree.nodes[id]? = some node)
    (favoured : tree.favourite id = .ok (some best)) (there : tree.nodes[best]? = some child)
    (numbers : ∀ other ∈ node.children, ∀ beside, tree.nodes[other]? = some beside →
      0 < beside.visits → Scalar.isUndefined beside.mean = false) :
    ∀ other ∈ node.children, ∀ beside, tree.nodes[other]? = some beside → 0 < beside.visits →
      Scalar.lt child.mean beside.mean = false := by
  obtain ⟨children, looked⟩ := linked.children found
  have defined : ∀ entry ∈ children, 0 < entry.2.visits →
      Scalar.isUndefined entry.2.mean = false := by
    intro entry he
    have there := getElem?_of_mem_children looked he
    exact numbers entry.1 (fst_mem_of_mem_children looked found he) entry.2 there
  obtain ⟨child', mem, above⟩ := le_favourite ordered looked defined favoured
  have there' := getElem?_of_mem_children looked mem
  rw [there, Option.some.injEq] at there'
  subst there'
  intro other named beside hb visited
  have entry := mem_children_of_mem looked found named hb
  exact ordered.not_lt (above _ entry visited)

end Tree

end HorizonUct
