import HorizonUct.Policy.Value
import HorizonUct.Proofs.Attempt
import HorizonUct.Proofs.Tree.Foremost

/-!
# What passes for a distribution

A row of a chain is refused if its sum is further from one than the tolerance
allows. A row whose sum is not a number is at no distance from one, and none
that is too great either, so it passes. The first row that is too far off is
reported with its node and its sum. A check that wants every sum to be near one
says the same, unless it comes to a sum that is not a number before it has
refused a row.
-/

namespace HorizonUct

/-- Comparisons as in `Comparable`, and a distance from one that is a number
exactly of a number. -/
structure Scalar.Gauged (α : Type) [Scalar α] : Prop extends Comparable α where
  /-- What is not a number has no distance from one, and all else has one. -/
  distance : ∀ x : α, isUndefined (abs (x - one)) = isUndefined x

/-- So it is with doubles. -/
theorem Scalar.gauged_binary64 (ln : Float → Float) : @Gauged Float (.binary64 ln) := by
  let _ := Scalar.binary64 ln
  refine { comparable_binary64 ln with distance := fun x => ?_ }
  have number : ∀ {y : Float}, isUndefined y = false ↔ ¬ Binary64.Undefined y :=
    fun {y} => isUndefined_binary64 ln y
  have same : isUndefined (abs (x - one)) = false ↔ isUndefined x = false := by
    rw [number, number]
    refine (not_congr Binary64.undefined_abs).trans ⟨fun h => (Binary64.defined_of_sub h).1, ?_⟩
    have finite : (Float.ofNat 1).toModel.unpack.isFinite = true := rfl
    exact fun h => Binary64.defined_sub_finite h finite
  rw [Bool.eq_iff_iff, ← Bool.not_eq_false, same, Bool.not_eq_false]

namespace Chain

variable {S α : Type} [Scalar α]

/-- The sum of the probabilities of a row, from left to right. -/
def rowSum (row : List (Nat × α)) : α := Scalar.total (row.map Prod.snd)

/-- A row is empty, or its sum is within the tolerance of one. -/
def Sound (tolerance : α) (row : List (Nat × α)) : Prop :=
  row ≠ [] → Scalar.le (Scalar.abs (rowSum row - Scalar.one)) tolerance = true

/-- A row is not empty, and its sum is further from one than the tolerance. -/
def Astray (tolerance : α) (row : List (Nat × α)) : Prop :=
  row ≠ [] ∧ Scalar.lt tolerance (Scalar.abs (rowSum row - Scalar.one)) = true

/-- A row is not empty, and its sum is not a number. -/
def Murky (row : List (Nat × α)) : Prop :=
  row ≠ [] ∧ Scalar.isUndefined (rowSum row) = true

variable {chain : Chain S α} {tolerance : α} {row : List (Nat × α)} {index : Nat}

/-- A row is unsound if it is astray or murky. -/
theorem not_sound_iff (gauged : Scalar.Gauged α) (number : Scalar.isUndefined tolerance = false) :
    ¬ Sound tolerance row ↔ Astray tolerance row ∨ Murky row := by
  rw [Sound, Astray, Murky, Classical.not_imp, Bool.not_eq_true, gauged.lt_iff, gauged.distance,
    and_iff_right number, ← and_or_left]
  refine and_congr_right fun _ => ?_
  cases murky : Scalar.isUndefined (rowSum row) with
  | false => simp
  | true =>
    refine iff_of_true (Bool.eq_false_iff.mpr fun near => ?_) (.inr rfl)
    have distance := (gauged.numbers near).1
    rw [gauged.distance, murky] at distance
    cases distance

/-- No row is both. -/
theorem Astray.not_murky (gauged : Scalar.Gauged α) (astray : Astray tolerance row) :
    ¬ Murky row := by
  rintro ⟨-, murky⟩
  have distance := (gauged.lt_iff.mp astray.2).2.1
  rw [gauged.distance, murky] at distance
  cases distance

/-- A row passes the check if it is not astray. -/
theorem checkRow_of_not_astray (chain : Chain S α) (index : Nat) (h : ¬ Astray tolerance row) :
    chain.checkRow tolerance index row = .ok () := by
  have passes : (!row.isEmpty &&
      Scalar.lt tolerance (Scalar.abs (rowSum row - Scalar.one))) = false := by
    rw [Bool.and_eq_false_iff, Bool.not_eq_false', List.isEmpty_iff]
    by_cases empty : row = []
    · exact .inl empty
    · exact .inr (Bool.eq_false_iff.mpr fun far => h ⟨empty, far⟩)
  show (if (!row.isEmpty && Scalar.lt tolerance (Scalar.abs (rowSum row - Scalar.one))) = true
    then _ else _) = _
  rw [passes]
  rfl

/-- One that is astray is reported with its node and its sum. -/
theorem checkRow_of_astray {here : Situation S} (present : chain.situations[index]? = some here)
    (astray : Astray tolerance row) :
    chain.checkRow tolerance index row = .error (.notADistribution here.node (rowSum row)) := by
  have refused : (!row.isEmpty &&
      Scalar.lt tolerance (Scalar.abs (rowSum row - Scalar.one))) = true := by
    rw [Bool.and_eq_true, Bool.not_eq_true', ← Bool.not_eq_true, List.isEmpty_iff]
    exact astray
  show (if (!row.isEmpty && Scalar.lt tolerance (Scalar.abs (rowSum row - Scalar.one))) = true
    then chain.situation index >>= fun here =>
      .error (Failure.notADistribution here.node (rowSum row)) else _) = _
  rw [refused, situation, present]
  rfl

/-- A row passes the check exactly if it is not astray. -/
theorem checkRow_eq_ok_iff {here : Situation S} (present : chain.situations[index]? = some here) :
    chain.checkRow tolerance index row = .ok () ↔ ¬ Astray tolerance row := by
  refine ⟨fun passed astray => ?_, checkRow_of_not_astray chain index⟩
  rw [checkRow_of_astray present astray] at passed
  cases passed

omit [Scalar α] in
/-- With a row for each situation there is a situation for each row. -/
theorem exists_situation (whole : chain.rows.size = chain.size)
    (listed : chain.rows[index]? = some row) :
    ∃ here, chain.situations[index]? = some here := by
  have inside : index < chain.size := whole ▸ (Array.getElem?_eq_some_iff.mp listed).1
  exact ⟨_, Array.getElem?_eq_getElem inside⟩

/-- The first row that is astray, with the situation that it belongs to. -/
structure FirstAstray (tolerance : α) (chain : Chain S α) (index : Nat) (row : List (Nat × α))
    (here : Situation S) : Prop where
  /-- The row is that of the situation. -/
  listed : chain.rows[index]? = some row
  /-- The situation. -/
  present : chain.situations[index]? = some here
  /-- The row is astray. -/
  astray : Astray tolerance row
  /-- None before it is. -/
  before : ∀ earlier < index, ∀ other, chain.rows[earlier]? = some other → ¬ Astray tolerance other

/-- The rows pass the check exactly if none of them is astray. -/
theorem checkRows_eq_ok_iff (whole : chain.rows.size = chain.size) :
    chain.checkRows tolerance = .ok () ↔
      ∀ (index : Nat) (row : List (Nat × α)), chain.rows[index]? = some row →
        ¬ Astray tolerance row := by
  rw [checkRows, Attempt.forM_eq_ok_iff]
  constructor
  · intro passed index row listed
    obtain ⟨here, present⟩ := exists_situation whole listed
    refine (checkRow_eq_ok_iff present).mp (passed (row, index) ?_)
    rwa [List.mem_zipIdx_iff_getElem?, Array.getElem?_toList]
  · rintro none ⟨row, index⟩ member
    rw [List.mem_zipIdx_iff_getElem?, Array.getElem?_toList] at member
    exact checkRow_of_not_astray chain index (none index row member)

/-- Otherwise the first one that is astray is reported. -/
theorem checkRows_eq_error_iff (whole : chain.rows.size = chain.size) {failure : Failure α} :
    chain.checkRows tolerance = .error failure ↔ ∃ index row here,
      FirstAstray tolerance chain index row here ∧
        failure = .notADistribution here.node (rowSum row) := by
  rw [checkRows, Attempt.forM_eq_error_iff]
  simp only [List.getElem?_zipIdx, Array.getElem?_toList, Option.map_eq_some_iff, Nat.zero_add]
  constructor
  · rintro ⟨index, _, ⟨row, listed, rfl⟩, before, broken⟩
    obtain ⟨here, present⟩ := exists_situation whole listed
    have astray : Astray tolerance row := by
      by_contra passes
      rw [checkRow_of_not_astray chain index passes] at broken
      cases broken
    rw [checkRow_of_astray present astray, Except.error.injEq] at broken
    refine ⟨index, row, here, ⟨listed, present, astray, fun earlier h other there => ?_⟩,
      broken.symm⟩
    obtain ⟨here', present'⟩ := exists_situation whole there
    exact (checkRow_eq_ok_iff present').mp (before earlier h (other, earlier) ⟨other, there, rfl⟩)
  · rintro ⟨index, row, here, first, rfl⟩
    refine ⟨index, (row, index), ⟨row, first.listed, rfl⟩, ?_,
      checkRow_of_astray first.present first.astray⟩
    rintro earlier h _ ⟨other, there, rfl⟩
    exact checkRow_of_not_astray chain earlier (first.before earlier h other there)

/-- What a check says that wants every sum to be near one. -/
inductive Verdict (tolerance : α) (chain : Chain S α) : Except (Failure α) Unit → Prop where
  /-- It passes if every row is sound. -/
  | passed (sound : ∀ (index : Nat) (row : List (Nat × α)), chain.rows[index]? = some row →
      Sound tolerance row) : Verdict tolerance chain (.ok ())
  /-- Otherwise it reports the first row that is not, with its node and its sum. -/
  | refused {index : Nat} {row : List (Nat × α)} {here : Situation S}
      (listed : chain.rows[index]? = some row) (present : chain.situations[index]? = some here)
      (unsound : ¬ Sound tolerance row)
      (before : ∀ earlier < index, ∀ other, chain.rows[earlier]? = some other →
        Sound tolerance other) :
      Verdict tolerance chain (.error (.notADistribution here.node (rowSum row)))

/-- A check that says so has refused a row before it comes to one whose sum is not a number. -/
theorem Verdict.astray_before (gauged : Scalar.Gauged α)
    (number : Scalar.isUndefined tolerance = false) (whole : chain.rows.size = chain.size)
    (verdict : Verdict tolerance chain (chain.checkRows tolerance))
    (listed : chain.rows[index]? = some row) (murky : Murky row) :
    ∃ earlier < index, ∃ other, chain.rows[earlier]? = some other ∧ Astray tolerance other := by
  have unsound : ¬ Sound tolerance row := (not_sound_iff gauged number).mpr (.inr murky)
  generalize result : chain.checkRows tolerance = outcome at verdict
  cases verdict with
  | passed sound => exact (unsound (sound index row listed)).elim
  | @refused index' row' here' listed' present' unsound' before =>
    -- what was reported has a number for a sum, so it is astray and not murky
    obtain ⟨index'', row'', here'', first, same⟩ := (checkRows_eq_error_iff whole).mp result
    obtain ⟨-, sum⟩ := Failure.notADistribution.inj same
    have clear : ¬ Murky row' := fun murky' =>
      first.astray.not_murky gauged ⟨first.astray.1, sum ▸ murky'.2⟩
    have astray := ((not_sound_iff gauged number).mp unsound').resolve_right clear
    refine ⟨index', ?_, row', listed', astray⟩
    rcases lt_trichotomy index index' with less | rfl | more
    · exact (unsound (before index less row listed)).elim
    · rw [listed, Option.some.injEq] at listed'
      exact (clear (listed' ▸ murky)).elim
    · exact more

/-- One that always has refused a row before says so. -/
theorem verdict_of_astray_before (gauged : Scalar.Gauged α)
    (number : Scalar.isUndefined tolerance = false) (whole : chain.rows.size = chain.size)
    (clear : ∀ (index : Nat) (row : List (Nat × α)), chain.rows[index]? = some row → Murky row →
      ∃ earlier < index, ∃ other, chain.rows[earlier]? = some other ∧ Astray tolerance other) :
    Verdict tolerance chain (chain.checkRows tolerance) := by
  cases result : chain.checkRows tolerance with
  | ok =>
    have none := (checkRows_eq_ok_iff whole).mp result
    refine .passed fun index row listed => ?_
    by_contra unsound
    rcases (not_sound_iff gauged number).mp unsound with astray | murky
    · exact none index row listed astray
    · obtain ⟨earlier, -, other, there, astray⟩ := clear index row listed murky
      exact none earlier other there astray
  | error failure =>
    obtain ⟨index, row, here, first, rfl⟩ := (checkRows_eq_error_iff whole).mp result
    have unsound : ¬ Sound tolerance row := (not_sound_iff gauged number).mpr (.inl first.astray)
    refine .refused first.listed first.present unsound fun earlier h other there => ?_
    by_contra unsound'
    rcases (not_sound_iff gauged number).mp unsound' with astray | murky
    · exact first.before earlier h other there astray
    · obtain ⟨earliest, less, another, there', astray⟩ := clear earlier other there murky
      exact first.before earliest (less.trans h) another there' astray

/-- The check says the same as one that wants every sum to be near one, exactly if
before each row whose sum is not a number there is one that is astray. -/
theorem verdict_iff (gauged : Scalar.Gauged α) (number : Scalar.isUndefined tolerance = false)
    (whole : chain.rows.size = chain.size) :
    Verdict tolerance chain (chain.checkRows tolerance) ↔
      ∀ (index : Nat) (row : List (Nat × α)), chain.rows[index]? = some row → Murky row →
        ∃ earlier < index, ∃ other, chain.rows[earlier]? = some other ∧ Astray tolerance other :=
  ⟨fun verdict _ _ listed murky => verdict.astray_before gauged number whole listed murky,
    verdict_of_astray_before gauged number whole⟩

/-- What there is to say about the check of the rows of a chain. -/
structure Checks (tolerance : α) (chain : Chain S α) : Prop where
  /-- It passes exactly if every row is sound or has no number for its sum. -/
  passes_iff : chain.checkRows tolerance = .ok () ↔ ∀ (index : Nat) (row : List (Nat × α)),
    chain.rows[index]? = some row → Sound tolerance row ∨ Murky row
  /-- Otherwise it reports the first row that is astray, with its node and its sum. -/
  reports_iff : ∀ failure, chain.checkRows tolerance = .error failure ↔ ∃ index row here,
    FirstAstray tolerance chain index row here ∧
      failure = .notADistribution here.node (rowSum row)
  /-- It wants every sum to be near one exactly if it refuses a row before it comes
  to any whose sum is not a number. -/
  verdict_iff : Verdict tolerance chain (chain.checkRows tolerance) ↔
    ∀ (index : Nat) (row : List (Nat × α)), chain.rows[index]? = some row → Murky row →
      ∃ earlier < index, ∃ other, chain.rows[earlier]? = some other ∧ Astray tolerance other

/-- With doubles, and a positive tolerance, the rows of every chain that has one for
each situation are checked like that. -/
theorem checks_of_positive {S : Type} (ln : Float → Float) {chain : Chain S Float}
    (whole : chain.rows.size = chain.size) {tolerance : Float} (positive : 0 < tolerance) :
    @Checks S Float (.binary64 ln) tolerance chain := by
  let _ := Scalar.binary64 ln
  have gauged := Scalar.gauged_binary64 ln
  have number : Scalar.isUndefined tolerance = false :=
    (gauged.lt_iff.mp (decide_eq_true positive)).2.1
  refine ⟨?_, fun failure => checkRows_eq_error_iff whole, verdict_iff gauged number whole⟩
  rw [checkRows_eq_ok_iff whole]
  refine forall_congr' fun index => forall_congr' fun row => imp_congr_right fun _ => ?_
  rw [← not_iff_not, not_not, not_or, not_sound_iff gauged number]
  exact ⟨fun astray => ⟨.inl astray, astray.not_murky gauged⟩,
    fun ⟨unsound, clear⟩ => unsound.resolve_right clear⟩

end Chain

namespace Murk

/-- A chain of three situations, the first two of which lead on. -/
def chain (first second : List Float) : Chain Nat Float where
  situations := #[⟨0, 4, some "go"⟩, ⟨1, 7, some "on"⟩, ⟨2, 9, none⟩]
  rows := #[first.map fun odds => (1, odds), second.map fun odds => (2, odds), []]
  start := 0

/-- What is not a number. -/
def nan : Float := 0 / 0

/-- Behind a row whose sum is not a number the first row that is astray is reported,
and the other one is not, as it would have been if it were wanted near one. -/
theorem second_reported : (chain [nan] [0.5, 0.25]).rows.size = (chain [nan] [0.5, 0.25]).size ∧
    0 < (0.00001 : Float) ∧
      (chain [nan] [0.5, 0.25]).checkRows 0.00001 = .error (.notADistribution 7 0.75) ∧
        ¬ Chain.Verdict 0.00001 (chain [nan] [0.5, 0.25])
          ((chain [nan] [0.5, 0.25]).checkRows 0.00001) := by
  have positive : 0 < (0.00001 : Float) := by decide +kernel
  have whole : (chain [nan] [0.5, 0.25]).rows.size = (chain [nan] [0.5, 0.25]).size := rfl
  have checks := Chain.checks_of_positive Float.log whole positive
  refine ⟨whole, positive, (checks.reports_iff _).mpr ⟨1, _, _, ⟨rfl, rfl, ?_, ?_⟩, ?_⟩, ?_⟩
  · exact ⟨List.cons_ne_nil _ _, by decide +kernel⟩
  · intro earlier h other there
    obtain rfl : earlier = 0 := by omega
    cases there
    exact fun astray => absurd astray.2 (by decide +kernel)
  · exact congrArg _ (by decide +kernel)
  · intro verdict
    obtain ⟨earlier, h, -⟩ := checks.verdict_iff.mp verdict 0 _ rfl
      ⟨List.cons_ne_nil _ _, by decide +kernel⟩
    exact absurd h (Nat.not_lt_zero earlier)

/-- A row whose sum is not a number passes a check with a finite and positive
tolerance, although it is not sound. -/
theorem undefined_passes : (chain [nan] [1]).rows.size = (chain [nan] [1]).size ∧
    0 < (0.00001 : Float) ∧ Float.isFinite 0.00001 = true ∧
      (chain [nan] [1]).checkRows 0.00001 = .ok () ∧
        ∃ row, (chain [nan] [1]).rows[0]? = some row ∧ ¬ Chain.Sound 0.00001 row := by
  refine ⟨rfl, by decide +kernel, by decide +kernel, Attempt.eq_ok_of_toOption (by decide +kernel),
    _, rfl, fun sound => ?_⟩
  exact absurd (sound (List.cons_ne_nil _ _)) (by decide +kernel)

/-- So does one whose infinite entries leave no sum. -/
example : ((chain [1 / 0, -(1 / 0)] [1]).checkRows 0.00001).toOption = some () := by decide +kernel

end Murk

end HorizonUct
