import HorizonUct.Proofs.Binary64.Monotone
import HorizonUct.Proofs.Tree.Odds

/-!
# Impossible outcomes

An outcome with the probability nought, or without any, adds nothing to the
running sum, so a draw that reaches it has been reached before. Still it can be
drawn in two cases. A draw of nought falls at the first outcome, whatever the
probability of that is, and a draw above the sum of all, which tolerance allows
to be less than one, falls at the last. Any other draw falls at a possible
outcome, wherever the impossible ones stand.

Nothing of this needs exact arithmetic. It is enough that a summand that is not
negative makes no sum less, and one that is nought makes none more, and this
holds of doubles.
-/

namespace HorizonUct

/-- Values that are not negative add up to ever more. -/
structure Scalar.Accumulates (α : Type) [Scalar α] : Prop extends Scalar.Ordered α where
  /-- Nought is not negative. -/
  nought : le (zero : α) zero = true
  /-- What is not negative is above nought, or at most nought. -/
  sides : ∀ {x : α}, le zero x = true → lt zero x = true ∨ le x zero = true
  /-- A summand that is not negative does not make a sum less. -/
  grows : ∀ {x y : α}, le zero x = true → le zero y = true → le x (x + y) = true
  /-- If it is at most nought, it does not make it more. -/
  rests : ∀ {x y : α}, le zero x = true → le zero y = true → le y zero = true →
    le (x + y) x = true

/-- Doubles that are not negative add up to ever more. -/
theorem Scalar.accumulates_binary64 (ln : Float → Float) : @Accumulates Float (.binary64 ln) := by
  let _ := Scalar.binary64 ln
  refine ⟨ordered_binary64 ln, ?_, fun {x} least => ?_, fun {x y} least least' => ?_,
    fun {x y} least least' most => ?_⟩
  · exact decide_eq_true (Binary64.le_iff.mpr
      ⟨Binary64.defined_zero, Binary64.defined_zero, le_rfl⟩)
  · obtain ⟨nz, nx, -⟩ := Binary64.le_iff.mp (of_decide_eq_true least)
    rcases lt_or_ge (Binary64.valueOf 0) (Binary64.valueOf x) with more | most
    · exact .inl (decide_eq_true (Binary64.lt_iff.mpr ⟨nz, nx, more⟩))
    · exact .inr (decide_eq_true (Binary64.le_iff.mpr ⟨nx, nz, most⟩))
  · exact decide_eq_true
      (Binary64.le_add_of_nonneg (of_decide_eq_true least) (of_decide_eq_true least'))
  · exact decide_eq_true (Binary64.add_le_of_not_pos (of_decide_eq_true least)
      (of_decide_eq_true least') (of_decide_eq_true most))

section Running

variable {α : Type} [Scalar α] {start draw odd : α} {odds : List α} {place : Nat}

/-- What has run up to a place and its own odd run up behind it. -/
theorem runUp_succ (there : odds[place]? = some odd) :
    runUp start odds (place + 1) = runUp start odds place + odd := by
  rw [runUp, List.take_add_one, there, List.foldl_append]
  rfl

/-- Behind the last place nothing more runs up. -/
theorem runUp_succ_of_le (behind : odds.length ≤ place) :
    runUp start odds (place + 1) = runUp start odds place := by
  rw [runUp, runUp, List.take_of_length_le behind, List.take_of_length_le (by omega)]

namespace Scalar.Accumulates

variable (laws : Scalar.Accumulates α)
include laws

/-- What is reached by a running sum from nought is reached by the next one. -/
theorem le_runUp_succ (nonneg : ∀ odd ∈ odds, le zero odd = true) {count : Nat}
    (least : le zero (runUp zero odds count) = true)
    (reached : le draw (runUp zero odds count) = true) :
    le draw (runUp zero odds (count + 1)) = true := by
  rcases Nat.lt_or_ge count odds.length with inside | behind
  · have there := List.getElem?_eq_getElem inside
    rw [runUp_succ there]
    exact laws.trans reached (laws.grows least (nonneg _ (List.mem_of_getElem? there)))
  · rw [runUp_succ_of_le behind]
    exact reached

/-- If no odd is negative, no running sum from nought is. -/
theorem runUp_nonneg (nonneg : ∀ odd ∈ odds, le zero odd = true) (count : Nat) :
    le zero (runUp zero odds count) = true := by
  induction count with
  | zero => exact laws.nought
  | succ count ih => exact laws.le_runUp_succ nonneg ih ih

/-- What is reached by a running sum from nought is reached by all later ones. -/
theorem le_runUp (nonneg : ∀ odd ∈ odds, le zero odd = true) {few many : Nat} (later : few ≤ many)
    (reached : le draw (runUp zero odds few) = true) : le draw (runUp zero odds many) = true := by
  induction many, later using Nat.le_induction with
  | base => exact reached
  | succ count _ ih => exact laws.le_runUp_succ nonneg (laws.runUp_nonneg nonneg count) ih

/-- A draw that is not above nought falls at the first place. -/
theorem place_eq_zero (falls : FallsAt zero odds draw place)
    (nonneg : ∀ odd ∈ odds, le zero odd = true) (least : le zero draw = true)
    (none : lt zero draw = false) : place = 0 := by
  by_contra behind
  have most : le draw zero = true := (laws.sides least).resolve_left (Bool.eq_false_iff.mp none)
  have reached := laws.trans most (laws.runUp_nonneg nonneg (0 + 1))
  rw [falls.skips 0 (Nat.pos_of_ne_zero behind)] at reached
  cases reached

/-- A draw above the whole sum falls at the last place. -/
theorem place_add_one (falls : FallsAt zero odds draw place)
    (nonneg : ∀ odd ∈ odds, le zero odd = true)
    (beyond : le draw (runUp zero odds odds.length) = false) : place + 1 = odds.length := by
  refine falls.reaches.resolve_left fun reached => ?_
  rw [laws.le_runUp nonneg falls.within reached] at beyond
  cases beyond

/-- If a draw reaches an odd of nought, it is itself not above nought, and that
odd is the first. -/
theorem eq_zero_of_reached (falls : FallsAt zero odds draw place)
    (nonneg : ∀ odd ∈ odds, le zero odd = true) (there : odds[place]? = some odd)
    (none : lt zero odd = false) (reached : le draw (runUp zero odds (place + 1)) = true) :
    place = 0 ∧ lt zero draw = false := by
  have least := nonneg odd (List.mem_of_getElem? there)
  have most := (laws.sides least).resolve_left (Bool.eq_false_iff.mp none)
  -- the odd adds nothing, so the draw was reached before
  have before : le draw (runUp zero odds place) = true := by
    rw [runUp_succ there] at reached
    exact laws.trans reached (laws.rests (laws.runUp_nonneg nonneg place) least most)
  cases place with
  | zero => exact ⟨rfl, laws.not_lt before⟩
  | succ place =>
    rw [falls.skips place (Nat.lt_succ_self place)] at before
    cases before

/-- What a draw falls at is possible unless the draw is nought and the first is
not, or the draw is above the sum and the last is not. -/
theorem possible_iff (falls : FallsAt zero odds draw place)
    (nonneg : ∀ odd ∈ odds, le zero odd = true) (least : le zero draw = true)
    (there : odds[place]? = some odd) : lt zero odd = true ↔
      (lt zero draw = true ∨ ∃ first ∈ odds.head?, lt zero first = true) ∧
        (le draw (runUp zero odds odds.length) = true ∨
          ∃ last ∈ odds.getLast?, lt zero last = true) := by
  have first : place = 0 → odds.head? = some odd := by
    rintro rfl
    rw [List.head?_eq_getElem?, there]
  have last : place + 1 = odds.length → odds.getLast? = some odd := getLast?_of_getElem? there
  constructor
  · intro possible
    refine ⟨?_, ?_⟩
    · cases positive : lt zero draw with
      | true => exact .inl rfl
      | false => exact .inr ⟨odd, first (laws.place_eq_zero falls nonneg least positive), possible⟩
    · cases inside : le draw (runUp zero odds odds.length) with
      | true => exact .inl rfl
      | false => exact .inr ⟨odd, last (laws.place_add_one falls nonneg inside), possible⟩
  · rintro ⟨low, high⟩
    by_contra impossible
    have none := Bool.eq_false_of_not_eq_true impossible
    have reached : le draw (runUp zero odds (place + 1)) = true := by
      by_contra missed
      have length := falls.reaches.resolve_left missed
      rw [length] at missed
      obtain ⟨odd', tail, possible⟩ := high.resolve_left missed
      rw [last length, Option.mem_some_iff] at tail
      exact impossible (tail ▸ possible)
    obtain ⟨begins, nought⟩ := laws.eq_zero_of_reached falls nonneg there none reached
    obtain ⟨odd', head, possible⟩ := low.resolve_left (Bool.eq_false_iff.mp nought)
    rw [first begins, Option.mem_some_iff] at head
    exact impossible (head ▸ possible)

end Scalar.Accumulates

end Running

section Drawing

variable {υ S α : Type} [Scalar α]

/-- An outcome with a probability above nought. -/
def Node.Possible (node : Node S α) : Prop :=
  ∃ odd, node.reach = some odd ∧ Scalar.lt Scalar.zero odd = true

/-- An outcome is possible if its odds are above nought. -/
theorem Node.possible_iff (laws : Scalar.Accumulates α) {node : Node S α} :
    node.Possible ↔ Scalar.lt Scalar.zero (node.reach.getD Scalar.zero) = true := by
  rw [Node.Possible]
  cases node.reach with
  | none => simp [laws.not_lt laws.nought]
  | some odd => simp

/-- The same of a child that may not be there. -/
theorem Node.exists_possible_iff (laws : Scalar.Accumulates α)
    (child? : Option (Nat × Node S α)) :
    (∃ odd ∈ child?.map fun entry => entry.2.reach.getD Scalar.zero,
      Scalar.lt Scalar.zero odd = true) ↔ ∃ child ∈ child?, child.2.Possible := by
  cases child? with
  | none => simp
  | some child => simp [Node.possible_iff laws]

/-- What there is to say about the child that a draw picks. -/
structure Drawn.Judged (children : List (Nat × Node S α)) (draw : α) (drawn : Drawn υ α)
    (node : Node S α) : Prop where
  /-- It is one of the children. -/
  member : (drawn.child, node) ∈ children
  /-- It is possible if the draw is above nought or the first child is possible,
  and the draw is not above the running sum or the last child is possible; else
  it is not. -/
  possible_iff : node.Possible ↔
    (Scalar.lt Scalar.zero draw = true ∨ ∃ first ∈ children.head?, first.2.Possible) ∧
      (Scalar.le draw (runUp Scalar.zero (Tree.oddsOf children) children.length) = true ∨
        ∃ last ∈ children.getLast?, last.2.Possible)
  /-- A draw that is not above nought picks the first child. -/
  first : Scalar.lt Scalar.zero draw = false → children.head? = some (drawn.child, node)
  /-- A draw above the running sum picks the last one. -/
  last : Scalar.le draw (runUp Scalar.zero (Tree.oddsOf children) children.length) = false →
    children.getLast? = some (drawn.child, node)

/-- Where odds make a distribution and add up to ever more, every draw picks a
child, which is possible but for the two exceptions. -/
theorem Tree.Fair.exists_judged [DrawSource υ α] (laws : Scalar.Accumulates α) {tree : Tree S α}
    {tolerance : α} {id : Nat} (fair : tree.Fair tolerance id) {source : υ}
    (least : Scalar.le (Scalar.zero : α) (DrawSource.next source).1 = true) :
    ∃ children drawn node, tree.children id = .ok children ∧
      tree.draw id tolerance source = .ok drawn ∧
        drawn.Judged children (DrawSource.next source).1 node := by
  obtain ⟨children, looked, some, accepted⟩ := fair
  have nonneg : ∀ odd ∈ oddsOf children, Scalar.le Scalar.zero odd = true := by
    rw [isDistribution, Bool.and_eq_true, List.all_eq_true] at accepted
    exact accepted.1
  have filled : oddsOf children ≠ [] := mt List.map_eq_nil_iff.mp some
  obtain ⟨place, falls⟩ := exists_fallsAt Scalar.zero (DrawSource.next source).1 filled
  obtain ⟨entry, there, drawn⟩ := draw_of_fallsAt looked accepted falls
  have odd : (oddsOf children)[place]? = Option.some (entry.2.reach.getD Scalar.zero) := by
    rw [oddsOf, List.getElem?_map, there, Option.map_some]
  refine ⟨children, _, entry.2, looked, drawn, List.mem_of_getElem? there, ?_, fun low => ?_,
    fun high => ?_⟩
  · have judged := laws.possible_iff falls nonneg least odd
    rw [length_oddsOf, oddsOf, List.head?_map, List.getLast?_map, Node.exists_possible_iff laws,
      Node.exists_possible_iff laws, ← Node.possible_iff laws] at judged
    exact judged
  · rw [List.head?_eq_getElem?, ← laws.place_eq_zero falls nonneg least low, there]
  · rw [← length_oddsOf] at high
    have length := laws.place_add_one falls nonneg high
    rw [length_oddsOf] at length
    exact getLast?_of_getElem? there length

end Drawing

/-- With doubles, whatever logarithm they come with, a draw that is not negative
picks a possible child wherever the odds make a distribution, unless it is nought
and the first child is impossible, or it is above the running sum and the last
child is impossible. -/
theorem Tree.judged_of_draw {υ S : Type} [DrawSource υ Float] (ln : Float → Float)
    {tree : Tree S Float} {tolerance : Float} {id : Nat}
    (fair : @Tree.Fair S Float (.binary64 ln) tree tolerance id) {source : υ}
    (least : 0 ≤ (DrawSource.next (α := Float) source).1) :
    ∃ children drawn node, tree.children id = .ok children ∧
      @Tree.draw υ S Float (.binary64 ln) _ tree id tolerance source = .ok drawn ∧
        @Drawn.Judged υ S Float (.binary64 ln) children
          (DrawSource.next (α := Float) source).1 drawn node := by
  let _ := Scalar.binary64 ln
  exact fair.exists_judged (Scalar.accumulates_binary64 ln) (decide_eq_true least)

namespace Gamble

/-- A toss with given odds, below the first state. -/
def toss (odds : List Float) : Tree Nat Float :=
  ((Tree.ofRoot 0).attach 0 (.chance 0 "go")).1.adopt 1
    (odds.zipIdx.map fun (odd, place) => .decision (place + 1) (some odd))

/-- A draw and nothing else, again and again. -/
def always (draw : Float) : Replay Float := ⟨#[draw], 0, Nat.one_pos⟩

/-- Odds pass the check, a draw is from nought on and below one, and what it
picks is impossible. -/
def Misses (odds : List Float) (tolerance draw : Float) : Prop :=
  (toss odds).Fair tolerance 1 ∧ tolerance < 1 ∧ 0 ≤ draw ∧ draw < 1 ∧
    ∃ drawn node, (toss odds).draw 1 tolerance (always draw) = .ok drawn ∧
      (toss odds).nodes[drawn.child]? = some node ∧ ¬node.Possible

/-- Odds that pass the check are fair. -/
theorem fair_of_check {tree : Tree Nat Float} {tolerance : Float} {id : Nat}
    (check : ((tree.children id).toOption.any fun children =>
      !children.isEmpty && isDistribution tolerance (Tree.oddsOf children)) = true) :
    tree.Fair tolerance id := by
  rcases looked : tree.children id with failure | children
  · rw [looked] at check
    cases check
  · rw [looked] at check
    obtain ⟨some, accepted⟩ := Bool.and_eq_true_iff.mp check
    rw [Bool.not_eq_true', List.isEmpty_eq_false_iff] at some
    exact ⟨children, looked, some, accepted⟩

/-- What a draw picks is impossible if its odds are not above nought. -/
theorem impossible_of_check {tree : Tree Nat Float} {tolerance draw : Float} {id : Nat}
    (check : (((tree.draw id tolerance (always draw)).toOption.bind fun drawn =>
      tree.nodes[drawn.child]?).any fun node =>
        !Scalar.lt Scalar.zero (node.reach.getD Scalar.zero)) = true) :
    ∃ drawn node, tree.draw id tolerance (always draw) = .ok drawn ∧
      tree.nodes[drawn.child]? = some node ∧ ¬node.Possible := by
  rcases picked : tree.draw id tolerance (always draw) with failure | drawn
  · rw [picked] at check
    cases check
  · rw [picked, Except.toOption, Option.bind_some, Option.any_eq_true] at check
    obtain ⟨node, found, none⟩ := check
    rw [Bool.not_eq_true'] at none
    refine ⟨drawn, node, rfl, found, fun possible => ?_⟩
    rw [Node.possible_iff (Scalar.accumulates_binary64 Float.log)] at possible
    exact Bool.eq_false_iff.mp none possible

/-- An impossible child is picked if it is the first one and the draw is nought,
or if it is the last one and the draw is above a sum that is short of one. -/
theorem misses_first_and_last :
    Misses [0, 1] 1e-5 0 ∧ Misses [0.9999999, 0] 1e-5 0.99999999 := by
  constructor
  · exact ⟨fair_of_check (by decide +kernel), by decide +kernel, by decide +kernel,
      by decide +kernel, impossible_of_check (by decide +kernel)⟩
  · exact ⟨fair_of_check (by decide +kernel), by decide +kernel, by decide +kernel,
      by decide +kernel, impossible_of_check (by decide +kernel)⟩

/-- A draw of a half from a toss whose first, middle and last outcomes are
impossible, and whose odds are short of one. -/
theorem judged_half : (toss [0, 0.5, 0, 0.4999999, 0]).Fair 1e-5 1 ∧
    0 ≤ (DrawSource.next (α := Float) (always 0.5)).1 ∧
    ∃ children drawn node, (toss [0, 0.5, 0, 0.4999999, 0]).children 1 = .ok children ∧
      (toss [0, 0.5, 0, 0.4999999, 0]).draw 1 1e-5 (always 0.5) = .ok drawn ∧
        drawn.Judged children 0.5 node := by
  have fair : (toss [0, 0.5, 0, 0.4999999, 0]).Fair 1e-5 1 := fair_of_check (by decide +kernel)
  have least : 0 ≤ (DrawSource.next (α := Float) (always 0.5)).1 := by decide +kernel
  exact ⟨fair, least, Tree.judged_of_draw Float.log fair least⟩

/-- It falls at the second outcome, which it just reaches, as a smaller one does;
a greater one falls at the fourth. -/
example : ([5e-324, 0.5, 0.75].map fun draw =>
    ((toss [0, 0.5, 0, 0.4999999, 0]).draw 1 1e-5 (always draw)).toOption.map Drawn.child) =
      [some 3, some 3, some 5] := by decide +kernel

end Gamble

end HorizonUct
