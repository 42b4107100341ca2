import HorizonUct.Proofs.Exact
import HorizonUct.Proofs.Fork
import HorizonUct.Proofs.Tree.Picks
import Mathlib.Algebra.Order.BigOperators.Group.List
import Mathlib.Order.Interval.Set.Defs
import Mathlib.Order.Monotone.Basic

/-!
# Where a draw falls

A draw falls at the first outcome at which the running sum of the probabilities
is not below it, or at the last outcome if there is none such. This holds of
any arithmetic. In exact arithmetic the outcomes so divide the numbers from
nought to the sum among them, each with a piece as long as its probability that
is open below and closed above. What is not above nought belongs to the first
outcome, and what is above the sum to the last.
-/

namespace HorizonUct

/-- The entry at the last place is the last one. -/
theorem getLast?_of_getElem? {β : Type} {entries : List β} {place : Nat} {entry : β}
    (there : entries[place]? = some entry) (length : place + 1 = entries.length) :
    entries.getLast? = some entry := by
  rw [List.getLast?_eq_getElem?, ← length, Nat.add_sub_cancel, there]

section Falls

variable {α : Type} [Scalar α]

/-- What so many of the first odds come to, added to a start from left to right. -/
def runUp (start : α) (odds : List α) (count : Nat) : α :=
  (odds.take count).foldl (· + ·) start

/-- The place at which a draw falls. -/
structure FallsAt (start : α) (odds : List α) (draw : α) (place : Nat) : Prop where
  /-- It is one of the places. -/
  within : place < odds.length
  /-- No place before it is reached. -/
  skips : ∀ earlier < place, Scalar.le draw (runUp start odds (earlier + 1)) = false
  /-- It is reached, or it is the last one. -/
  reaches : Scalar.le draw (runUp start odds (place + 1)) = true ∨ place + 1 = odds.length

variable {start draw : α} {odds : List α}

/-- A draw falls at the first place if that is reached, or is the only one. -/
theorem fallsAt_cons_zero {odd : α} : FallsAt start (odd :: odds) draw 0 ↔
    Scalar.le draw (start + odd) = true ∨ odds = [] := by
  have here : runUp start (odd :: odds) (0 + 1) = start + odd := rfl
  constructor
  · rintro ⟨-, -, reaches⟩
    rw [here, List.length_cons] at reaches
    exact reaches.imp_right fun last => List.eq_nil_of_length_eq_zero (Nat.succ.inj last).symm
  · intro reaches
    refine ⟨Nat.succ_pos _, nofun, ?_⟩
    rw [here]
    exact reaches.imp_right fun none => by rw [none]; rfl

/-- It falls at a later place if the first one is missed and it falls there
among the others, for which that one starts the sum. -/
theorem fallsAt_cons_succ {odd : α} {place : Nat} :
    FallsAt start (odd :: odds) draw (place + 1) ↔
      Scalar.le draw (start + odd) = false ∧ FallsAt (start + odd) odds draw place := by
  constructor
  · rintro ⟨within, skips, reaches⟩
    exact ⟨skips 0 (Nat.succ_pos place), Nat.lt_of_succ_lt_succ within,
      fun earlier before => skips (earlier + 1) (Nat.succ_lt_succ before),
      reaches.imp_right Nat.succ.inj⟩
  · rintro ⟨missed, within, skips, reaches⟩
    refine ⟨Nat.succ_lt_succ within, fun earlier before => ?_, reaches.imp_right (congrArg (· + 1))⟩
    cases earlier with
    | zero => exact missed
    | succ earlier => exact skips earlier (Nat.lt_of_succ_lt_succ before)

/-- Each draw falls somewhere if there is anywhere to fall. -/
theorem exists_fallsAt (start draw : α) (some : odds ≠ []) :
    ∃ place, FallsAt start odds draw place := by
  induction odds generalizing start with
  | nil => exact (some rfl).elim
  | cons odd rest ih =>
    by_cases reached : Scalar.le draw (start + odd) = true ∨ rest = []
    · exact ⟨0, fallsAt_cons_zero.mpr reached⟩
    · obtain ⟨missed, more⟩ := not_or.mp reached
      obtain ⟨place, falls⟩ := ih (start + odd) more
      exact ⟨place + 1, fallsAt_cons_succ.mpr ⟨Bool.eq_false_of_not_eq_true missed, falls⟩⟩

/-- Running through weighted entries finds the one at which a draw falls, or
tells the whole sum if the draw is above it. -/
theorem firstReaching_of_fallsAt {weights : List (Nat × α)} {place : Nat} {entry : Nat × α}
    (there : weights[place]? = some entry)
    (falls : FallsAt start (weights.map Prod.snd) draw place) :
    firstReaching draw start weights =
      if Scalar.le draw (runUp start (weights.map Prod.snd) (place + 1)) then .ok entry.1
      else .error (runUp start (weights.map Prod.snd) weights.length) := by
  induction weights generalizing start place with
  | nil => cases there
  | cons first rest ih =>
    rw [List.map_cons] at falls ⊢
    rw [firstReaching]
    cases place with
    | zero =>
      rw [List.getElem?_cons_zero, Option.some.injEq] at there
      subst there
      rw [show runUp start (first.2 :: rest.map Prod.snd) (0 + 1) = start + first.2 from rfl]
      rcases fallsAt_cons_zero.mp falls with reached | last
      · rw [if_pos reached, if_pos reached]
      · rw [List.map_eq_nil_iff.mp last]
        rfl
    | succ place =>
      obtain ⟨missed, falls⟩ := fallsAt_cons_succ.mp falls
      rw [if_neg (Bool.eq_false_iff.mp missed)]
      exact ih there falls

end Falls

namespace Tree

variable {υ S α : Type} [Scalar α] {tree : Tree S α} {id : Nat} {tolerance : α}
variable {children : List (Nat × Node S α)}

/-- The odds of children: their probabilities, where one without any is impossible. -/
def oddsOf (children : List (Nat × Node S α)) : List α :=
  children.map fun entry => entry.2.reach.getD Scalar.zero

/-- There are as many odds as children. -/
@[simp]
theorem length_oddsOf (children : List (Nat × Node S α)) :
    (oddsOf children).length = children.length :=
  List.length_map _

variable [DrawSource υ α]

/-- Nothing is drawn if there is no child, or if the odds make no distribution. -/
theorem draw_of_refused (looked : tree.children id = .ok children)
    (refused : children = [] ∨ isDistribution tolerance (oddsOf children) = false) (source : υ) :
    tree.draw id tolerance source =
      .error (.notADistribution id (Scalar.total (oddsOf children))) := by
  rw [draw, looked]
  dsimp only [bind, Except.bind]
  rw [List.map_map]
  split
  · next last weight ends =>
    rw [if_neg]
    · rfl
    · rcases refused with rfl | refused
      · cases ends
      · exact Bool.eq_false_iff.mp refused
  · rfl

/-- If the odds make a distribution, the child at which the next draw falls is
drawn. A draw above the sum is told. -/
theorem draw_of_fallsAt (looked : tree.children id = .ok children)
    (accepted : isDistribution tolerance (oddsOf children) = true) {source : υ} {place : Nat}
    (falls : FallsAt Scalar.zero (oddsOf children) (DrawSource.next source).1 place) :
    ∃ entry, children[place]? = some entry ∧ tree.draw id tolerance source =
      .ok ⟨entry.1, (DrawSource.next (α := α) source).2,
        if Scalar.le (DrawSource.next source).1
            (runUp Scalar.zero (oddsOf children) (place + 1)) then none
        else some (.drawBeyond id (DrawSource.next source).1
          (runUp Scalar.zero (oddsOf children) children.length))⟩ := by
  have within := falls.within
  rw [length_oddsOf] at within
  obtain ⟨entry, there⟩ : ∃ entry, children[place]? = some entry :=
    ⟨_, List.getElem?_eq_getElem within⟩
  refine ⟨entry, there, ?_⟩
  have odds : (children.map fun entry => (entry.1, entry.2.reach.getD Scalar.zero)).map Prod.snd =
      oddsOf children := by
    rw [List.map_map]
    rfl
  have placed : (children.map fun entry => (entry.1, entry.2.reach.getD Scalar.zero))[place]? =
      some (entry.1, entry.2.reach.getD Scalar.zero) := by
    rw [List.getElem?_map, there]
    rfl
  have found := firstReaching_of_fallsAt placed (odds ▸ falls)
  rw [odds, List.length_map] at found
  rw [draw, looked]
  dsimp only [bind, Except.bind]
  rw [odds]
  split
  · next last weight ends =>
    rw [if_pos accepted, found]
    by_cases reached : Scalar.le (DrawSource.next source).1
        (runUp Scalar.zero (oddsOf children) (place + 1)) = true
    · rw [if_pos reached, if_pos reached]
      rfl
    · have length := falls.reaches.resolve_left reached
      rw [length_oddsOf] at length
      rw [getLast?_of_getElem? placed (by rw [List.length_map, length]), Option.some.injEq,
        Prod.mk.injEq] at ends
      rw [if_neg reached, if_neg reached, ends.1]
      rfl
  · next none =>
    rw [List.getLast?_eq_none_iff] at none
    rw [none] at placed
    cases placed

end Tree

section Exact

variable {K : Type} [Field K] [LinearOrder K] (ln sqrt : K → K) {odds : List K}

/-- How the draws are shared out by exact odds: `place` tells where each falls. -/
structure Apportions (odds : List K) (place : K → Nat) : Prop where
  /-- Each falls at one of the places. -/
  within : ∀ draw, place draw < odds.length
  /-- What is not above nought falls at the first place. -/
  first : ∀ {draw : K}, draw ≤ 0 → place draw = 0
  /-- Of what is above nought and not above the sum, a place gets the interval
  that begins with the sum of the odds before it and is as long as its own. -/
  piece : ∀ {at_ : Nat} {odd : K}, odds[at_]? = some odd →
    {draw | 0 < draw ∧ draw ≤ odds.sum ∧ place draw = at_} =
      Set.Ioc (odds.take at_).sum ((odds.take at_).sum + odd)
  /-- What is above the sum falls at the last place. -/
  last : ∀ {draw : K}, odds.sum < draw → place draw + 1 = odds.length
  /-- A greater draw never falls at an earlier place. -/
  later : Monotone place

/-- Exact odds by which nothing is drawn: there are none, or one is negative, or
their sum is farther from one than is tolerated. -/
def Refused (tolerance : K) (odds : List K) : Prop :=
  odds = [] ∨ (∃ odd ∈ odds, odd < 0) ∨ tolerance < |odds.sum - 1|

/-- In exact arithmetic odds are refused if there are none or they make no distribution. -/
theorem refused_iff {tolerance : K} : Refused tolerance odds ↔
    odds = [] ∨ @isDistribution K (.exact ln sqrt) tolerance odds = false := by
  let _ := Scalar.exact ln sqrt
  have negative : (∃ odd ∈ odds, odd < 0) ↔ odds.all (Scalar.le Scalar.zero) = false := by
    rw [List.all_eq_false, Scalar.zero_exact ln sqrt]
    exact exists_congr fun odd => and_congr_right fun _ => by
      rw [← not_le]
      exact not_congr decide_eq_true_iff.symm
  have far : tolerance < |odds.sum - 1| ↔
      Scalar.lt tolerance (Scalar.abs (Scalar.total odds - Scalar.one)) = true := by
    have one : (Scalar.one : K) = 1 := Nat.cast_one
    rw [Scalar.total_exact ln sqrt, one]
    exact decide_eq_true_iff.symm
  rw [Refused, isDistribution, Bool.and_eq_false_iff, Bool.not_eq_false', negative, far]

/-- In exact arithmetic the running sum is the sum of the odds so far. -/
theorem runUp_exact (odds : List K) (count : Nat) :
    @runUp K (.exact ln sqrt) (@Scalar.zero K (.exact ln sqrt)) odds count =
      (odds.take count).sum := by
  rw [Scalar.zero_exact, List.sum_eq_foldl]
  rfl

/-- In exact arithmetic a draw falls at the first place up to which the odds
come to no less, or at the last one. -/
theorem fallsAt_exact_iff {draw : K} {place : Nat} :
    @FallsAt K (.exact ln sqrt) (@Scalar.zero K (.exact ln sqrt)) odds draw place ↔
      place < odds.length ∧ (∀ earlier < place, (odds.take (earlier + 1)).sum < draw) ∧
        (draw ≤ (odds.take (place + 1)).sum ∨ place + 1 = odds.length) := by
  let _ := Scalar.exact ln sqrt
  have le_iff : ∀ count, Scalar.le draw (runUp Scalar.zero odds count) = true ↔
      draw ≤ (odds.take count).sum := fun count => by
    rw [runUp_exact]
    exact decide_eq_true_iff
  have lt_iff : ∀ count, Scalar.le draw (runUp Scalar.zero odds count) = false ↔
      (odds.take count).sum < draw := fun count => by
    rw [← Bool.not_eq_true, le_iff, not_le]
  constructor
  · rintro ⟨within, skips, reaches⟩
    exact ⟨within, fun earlier before => (lt_iff _).mp (skips earlier before),
      reaches.imp_left (le_iff _).mp⟩
  · rintro ⟨within, skips, reaches⟩
    exact ⟨within, fun earlier before => (lt_iff _).mpr (skips earlier before),
      reaches.imp_left (le_iff _).mpr⟩

omit [LinearOrder K] in
/-- The odds up to a place are those before it and its own. -/
theorem sum_take_succ_of_getElem? {at_ : Nat} {odd : K} (there : odds[at_]? = some odd) :
    (odds.take (at_ + 1)).sum = (odds.take at_).sum + odd := by
  rw [List.take_add_one, there, List.sum_append, Option.toList_some, List.sum_singleton]

variable [IsStrictOrderedRing K]

/-- More of the odds come to no less if none is negative. -/
theorem sum_take_le_sum_take (nonneg : ∀ odd ∈ odds, 0 ≤ odd) {few many : Nat}
    (h : few ≤ many) : (odds.take few).sum ≤ (odds.take many).sum :=
  (List.take_prefix_take_left h).sublist.sum_le_sum fun odd mem =>
    nonneg odd (List.mem_of_mem_take mem)

/-- Where draws fall by odds none of which is negative, these share them out. -/
theorem apportions_of_fallsAt (nonneg : ∀ odd ∈ odds, 0 ≤ odd) {place : K → Nat}
    (falls : ∀ draw, @FallsAt K (.exact ln sqrt) (@Scalar.zero K (.exact ln sqrt)) odds draw
      (place draw)) : Apportions odds place := by
  have rises : ∀ few many, few ≤ many → (odds.take few).sum ≤ (odds.take many).sum :=
    fun _ _ => sum_take_le_sum_take nonneg
  have whole : (odds.take odds.length).sum = odds.sum := by rw [List.take_length]
  have falls := fun draw => (fallsAt_exact_iff ln sqrt).mp (falls draw)
  have within : ∀ draw, place draw < odds.length := fun draw => (falls draw).1
  -- what is reached, and what is not, on either side of the place
  have missed : ∀ {draw : K} {at_ : Nat}, at_ < place draw → (odds.take (at_ + 1)).sum < draw :=
    fun {draw at_} before => (falls draw).2.1 at_ before
  have reached : ∀ {draw : K}, place draw + 1 < odds.length →
      draw ≤ (odds.take (place draw + 1)).sum := fun {draw} more =>
    (falls draw).2.2.resolve_right (Nat.ne_of_lt more)
  refine ⟨within, fun {draw} low => ?_, fun {at_ odd} there => ?_, fun {draw} high => ?_,
    fun lower upper rise => ?_⟩
  · by_contra behind
    have skipped := missed (Nat.pos_of_ne_zero behind)
    have started := rises 0 1 (Nat.zero_le 1)
    rw [List.take_zero, List.sum_nil] at started
    exact not_lt.mpr low (started.trans_lt skipped)
  · have inside : at_ < odds.length := (List.getElem?_eq_some_iff.mp there).1
    rw [← sum_take_succ_of_getElem? there]
    ext draw
    constructor
    · rintro ⟨positive, upto, rfl⟩
      constructor
      · cases here : place draw with
        | zero => exact positive
        | succ before => exact missed (by omega)
      · rcases Nat.lt_or_eq_of_le inside with more | last
        · exact reached more
        · rw [show place draw + 1 = odds.length from last, whole]
          exact upto
    · rintro ⟨above, upto⟩
      have started := rises 0 at_ (Nat.zero_le at_)
      have ended := rises (at_ + 1) odds.length inside
      rw [whole] at ended
      refine ⟨started.trans_lt above, upto.trans ended, Nat.le_antisymm ?_ ?_⟩
      · by_contra behind
        exact not_lt.mpr upto (missed (Nat.lt_of_not_le behind))
      · by_contra before
        have next := Nat.lt_of_not_le before
        have earlier := (reached (Nat.lt_of_le_of_lt next inside)).trans (rises _ at_ next)
        exact not_lt.mpr earlier above
  · by_contra more
    have inside : place draw + 1 < odds.length := Nat.lt_of_le_of_ne (within draw) more
    have all := rises (place draw + 1) odds.length inside.le
    rw [whole] at all
    exact not_lt.mpr ((reached inside).trans all) high
  · by_contra behind
    have before := Nat.lt_of_not_le behind
    have next := reached (Nat.lt_of_le_of_lt before (within lower))
    exact not_lt.mpr (rise.trans next) (missed before)

/-- In exact arithmetic a draw is above all that it runs through exactly if it is
above the sum. -/
theorem FallsAt.le_iff {draw : K} {place : Nat} (nonneg : ∀ odd ∈ odds, 0 ≤ odd)
    (falls : @FallsAt K (.exact ln sqrt) (@Scalar.zero K (.exact ln sqrt)) odds draw place) :
    draw ≤ (odds.take (place + 1)).sum ↔ draw ≤ odds.sum := by
  obtain ⟨within, -, reaches⟩ := (fallsAt_exact_iff ln sqrt).mp falls
  have ended := sum_take_le_sum_take nonneg (Nat.succ_le_of_lt within)
  rw [List.take_length] at ended
  constructor
  · exact fun reached => reached.trans ended
  · intro upto
    refine reaches.elim id fun last => ?_
    rw [last, List.take_length]
    exact upto

end Exact

/-- A search takes no draw at a node where none can be drawn. -/
theorem Progress.source_depart_of_error {σ υ S α : Type} [Scalar α] [DrawSource υ α]
    {progress : Progress σ υ S α} {rules : Rules S α} {bias : α} {id : Nat} {failure : Failure α}
    (failed : progress.tree.draw id rules.tolerance progress.source = .error failure) :
    (progress.depart rules bias id).2.source = progress.source := by
  have departure := departure_depart rules bias progress id
  generalize progress.depart rules bias id = departs at departure ⊢
  obtain ⟨result, last⟩ := departs
  cases departure with
  | lost | unselected | stop | pick | unearned | undrawn => rfl
  | act _ _ _ drawn =>
    rw [failed] at drawn
    cases drawn

namespace Tree

variable {υ S K : Type} [DrawSource υ K] [Field K] [LinearOrder K] {tree : Tree S K}

/-- How a child of a node is drawn by exact odds. -/
structure Allots (υ : Type) [DrawSource υ K] (ln sqrt : K → K) (tree : Tree S K) (tolerance : K)
    (id : Nat) (children : List (Nat × Node S K)) (odds : List K) : Prop where
  /-- The failure that names the node and the sum comes of refused odds, and of nothing else. -/
  refuses : ∀ source : υ, @draw υ S K (.exact ln sqrt) _ tree id tolerance source =
    .error (.notADistribution id odds.sum) ↔ Refused tolerance odds
  /-- Then no search that leaves the node takes a draw. -/
  spares : Refused tolerance odds → ∀ {σ : Type} (progress : Progress σ υ S K) (rules : Rules S K)
    (bias : K), progress.tree = tree → rules.tolerance = tolerance →
      (@Progress.depart σ υ S K (.exact ln sqrt) _ rules bias progress id).2.source =
        progress.source
  /-- Otherwise the next draw alone decides, and the odds share out the draws. One
  above the sum is told. -/
  draws : ¬Refused tolerance odds → ∃ place, Apportions odds place ∧ ∀ source : υ,
    ∃ entry, children[place (DrawSource.next source).1]? = some entry ∧
      @draw υ S K (.exact ln sqrt) _ tree id tolerance source =
        .ok ⟨entry.1, (DrawSource.next (α := K) source).2,
          if (DrawSource.next source).1 ≤ odds.sum then none
          else some (.drawBeyond id (DrawSource.next source).1 odds.sum)⟩

section Exact

variable (ln sqrt : K → K) {id : Nat} {tolerance : K} {odds : List K}
variable {children : List (Nat × Node S K)}

/-- In exact arithmetic a node without a probability has odds of nought. -/
theorem oddsOf_exact : @oddsOf S K (.exact ln sqrt) children =
    children.map fun entry => entry.2.reach.getD 0 := by
  let _ := Scalar.exact ln sqrt
  rw [oddsOf, Scalar.zero_exact ln sqrt]

/-- In exact arithmetic nothing is drawn by refused odds. -/
theorem draw_eq_error_of_refused (looked : tree.children id = .ok children)
    (given : (children.map fun entry => entry.2.reach.getD 0) = odds)
    (refused : Refused tolerance odds) (source : υ) :
    @draw υ S K (.exact ln sqrt) _ tree id tolerance source =
      .error (.notADistribution id odds.sum) := by
  let _ := Scalar.exact ln sqrt
  rw [← oddsOf_exact ln sqrt] at given
  subst given
  rw [← Scalar.total_exact ln sqrt]
  refine draw_of_refused looked ?_ source
  exact ((refused_iff ln sqrt).mp refused).imp_left List.map_eq_nil_iff.mp

/-- In exact arithmetic a child is drawn by any other odds, which share out the draws. -/
theorem draw_eq_ok_of_not_refused [IsStrictOrderedRing K] (looked : tree.children id = .ok children)
    (given : (children.map fun entry => entry.2.reach.getD 0) = odds)
    (accepted : ¬Refused tolerance odds) : ∃ place, Apportions odds place ∧ ∀ source : υ,
      ∃ entry, children[place (DrawSource.next source).1]? = some entry ∧
        @draw υ S K (.exact ln sqrt) _ tree id tolerance source =
          .ok ⟨entry.1, (DrawSource.next (α := K) source).2,
            if (DrawSource.next source).1 ≤ odds.sum then none
            else some (.drawBeyond id (DrawSource.next source).1 odds.sum)⟩ := by
  let _ := Scalar.exact ln sqrt
  have nonneg : ∀ odd ∈ odds, 0 ≤ odd := fun odd mem => by
    by_contra negative
    exact accepted (.inr (.inl ⟨odd, mem, not_le.mp negative⟩))
  rw [refused_iff ln sqrt, not_or, Bool.not_eq_false] at accepted
  rw [← oddsOf_exact ln sqrt] at given
  subst given
  choose place falls using fun draw => exists_fallsAt Scalar.zero draw accepted.1
  refine ⟨place, apportions_of_fallsAt ln sqrt nonneg falls, fun source => ?_⟩
  have here := falls (DrawSource.next source).1
  obtain ⟨entry, there, drawn⟩ := draw_of_fallsAt looked accepted.2 here
  refine ⟨entry, there, drawn.trans ?_⟩
  have reached : Scalar.le (DrawSource.next source).1
      (runUp Scalar.zero (oddsOf children) (place (DrawSource.next source).1 + 1)) = true ↔
        (DrawSource.next source).1 ≤ (oddsOf children).sum := by
    rw [runUp_exact, ← FallsAt.le_iff ln sqrt nonneg here]
    exact decide_eq_true_iff
  simp only [reached]
  rw [runUp_exact, ← length_oddsOf, List.take_length]

/-- In exact arithmetic, whatever probabilities the children of a node have and
whatever is tolerated, outcomes are drawn in proportion to them. -/
theorem draw_allots [IsStrictOrderedRing K] (looked : tree.children id = .ok children)
    (tolerance : K) : tree.Allots υ ln sqrt tolerance id children
      (children.map fun entry => entry.2.reach.getD 0) := by
  let _ := Scalar.exact ln sqrt
  have failed := fun refused : Refused tolerance _ =>
    draw_eq_error_of_refused (υ := υ) ln sqrt looked rfl refused
  have drawn := fun accepted : ¬Refused tolerance _ =>
    draw_eq_ok_of_not_refused (υ := υ) ln sqrt looked rfl accepted
  refine ⟨fun source => ⟨fun told => ?_, fun refused => failed refused source⟩, ?_, drawn⟩
  · by_contra accepted
    obtain ⟨place, -, draws⟩ := drawn accepted
    obtain ⟨entry, -, ended⟩ := draws source
    rw [told] at ended
    cases ended
  · intro refused σ progress rules bias same tolerated
    subst same tolerated
    exact Progress.source_depart_of_error (failed refused progress.source)

end Exact

end Tree

namespace Fork

/-- An action in the first state, with three outcomes: one in four times the
second state, never the third, and else the fourth, but for what is tolerated. -/
def gamble : Tree Nat ℚ :=
  ((Tree.ofRoot 0).attach 0 (.chance 0 "toss")).1.adopt 1
    [.decision 1 (some (1 / 4)), .decision 2 (some 0), .decision 3 (some (1499 / 2000))]

/-- The odds of the three outcomes share out the draws. -/
theorem allots_gamble : ∃ children, gamble.children 1 = .ok children ∧
    gamble.Allots (Replay ℚ) (fun x => x) (fun x => x) (1 / 1000) 1 children
      [1 / 4, 0, 1499 / 2000] := by
  have looked : (gamble.children 1).toOption.map (·.map fun entry => entry.2.reach.getD 0) =
      some [1 / 4, 0, 1499 / 2000] := by decide +kernel
  rcases h : gamble.children 1 with failure | children
  · rw [h] at looked
    cases looked
  · rw [h] at looked
    refine ⟨children, rfl, ?_⟩
    rw [← Option.some.inj looked]
    exact Tree.draw_allots (fun x => x) (fun x => x) h (1 / 1000)

/-- A quarter still falls at the first outcome, and whatever is above it at the
last one, the least as well as what is above the sum. -/
example : ([1 / 4, 1 / 4 + 1 / 1000000, 1999 / 2000].map fun draw =>
    (gamble.draw 1 (1 / 1000) (⟨#[draw], 0, Nat.one_pos⟩ : Replay ℚ)).toOption.map
      Drawn.child) = [some 2, some 4, some 4] := by decide +kernel

end Fork

end HorizonUct
