import HorizonUct.Problem
import HorizonUct.Proofs.Attempt
import Mathlib.Data.Option.Basic

/-!
# What the earnings of a problem come to

An earning counts for an action in a state if it names that action and does not
leave the state out. The reward is the sum of what the counting earnings are
worth, in their order. It cannot be told if one of them names a constant that is
not defined, and then the first of these is to blame. Earnings that do not count
are of no consequence, even if the constants that they name are not defined.
-/

namespace HorizonUct

variable {α : Type}

section Worth

/-- A worth has a value: the one that is given, or the one of the constant that it names. -/
inductive Worth.Is (constants : Constants α) : Worth α → α → Prop where
  /-- The value is given. -/
  | value (x : α) : Is constants (.value x) x
  /-- It is the value of a constant. -/
  | constant {name : String} {x : α} (defined : constants.get? name = some x) :
      Is constants (.constant name) x

/-- A worth names a constant that is not defined. -/
def Worth.Lacks (constants : Constants α) (worth : Worth α) (name : String) : Prop :=
  worth = .constant name ∧ constants.get? name = none

variable {constants : Constants α} {worth : Worth α}

/-- A worth is evaluated to its value. -/
theorem Worth.evaluate_eq_ok_iff {x : α} :
    worth.evaluate constants = .ok x ↔ worth.Is constants x := by
  constructor
  · intro h
    cases worth with
    | value y =>
      obtain rfl := Except.ok.inj h
      exact .value y
    | constant name =>
      rw [evaluate, Constants.value] at h
      split at h
      · next y defined =>
        obtain rfl := Except.ok.inj h
        exact .constant defined
      · cases h
  · rintro (_ | defined)
    · rfl
    · rw [evaluate, Constants.value, defined]

/-- It is not evaluated exactly if its constant is not defined. -/
theorem Worth.evaluate_eq_error_iff {failure : Failure α} :
    worth.evaluate constants = .error failure ↔
      ∃ name, worth.Lacks constants name ∧ failure = .reward (.undefinedConstant name) := by
  constructor
  · intro h
    cases worth with
    | value y => cases h
    | constant name =>
      rw [evaluate, Constants.value] at h
      split at h
      · cases h
      · next missing => exact ⟨name, ⟨rfl, missing⟩, (Except.error.inj h).symm⟩
  · rintro ⟨name, ⟨rfl, missing⟩, rfl⟩
    rw [evaluate, Constants.value, missing]

/-- A worth with a value lacks no constant. -/
theorem Worth.Is.not_lacks {x : α} (value : worth.Is constants x) (name : String) :
    ¬ worth.Lacks constants name := by
  rintro ⟨rfl, missing⟩
  cases value with
  | constant defined =>
    rw [missing] at defined
    cases defined

end Worth

section Counting

/-- An earning counts for an action in a state: it names the action, and its
states, if there are any given, contain the state. -/
def Earning.Counts (state : Nat) (action : String) (earning : Earning α) : Prop :=
  earning.action = action ∧ ∀ states ∈ earning.states, state ∈ states

instance (state : Nat) (action : String) (earning : Earning α) :
    Decidable (earning.Counts state action) :=
  inferInstanceAs (Decidable (_ ∧ ∀ states ∈ earning.states, state ∈ states))

/-- An earning covers a state unless its states are given and leave it out. -/
theorem Earning.covers_iff {state : Nat} {earning : Earning α} :
    earning.covers state = true ↔ ∀ states ∈ earning.states, state ∈ states := by
  unfold covers
  cases earning.states with
  | none => simp
  | some states => simp

/-- It counts exactly if its rule applies and is about the action. -/
theorem Earning.covers_and_action {state : Nat} {action : String} {earning : Earning α} :
    (earning.covers state && earning.action == action) = decide (earning.Counts state action) := by
  rw [Bool.eq_iff_iff, Bool.and_eq_true, decide_eq_true_iff, covers_iff, beq_iff_eq, Counts,
    and_comm]

/-- The earnings that count, in order. -/
def Problem.counting (problem : Problem α) (state : Nat) (action : String) : List (Earning α) :=
  problem.earnings.filter (·.Counts state action)

end Counting

section Sum

variable [Scalar α] {constants : Constants α} {state : Nat} {action : String}
variable {earning : Earning α} {earnings : List (Earning α)} {sum total : α}

/-- A sum of rewards with what an earning is worth. -/
def Earning.add (constants : Constants α) (sum : α) (earning : Earning α) :
    Except (Failure α) α := do
  return sum + (← earning.worth.evaluate constants)

/-- An earning adds its value. -/
theorem Earning.add_eq_ok_iff : earning.add constants sum = .ok total ↔
    ∃ value, earning.worth.Is constants value ∧ sum + value = total := by
  rw [add, Attempt.bind_eq_ok_iff]
  refine exists_congr fun value => and_congr Worth.evaluate_eq_ok_iff ?_
  exact ⟨Except.ok.inj, congrArg Except.ok⟩

/-- It adds none exactly if it lacks a constant. -/
theorem Earning.add_eq_error_iff {failure : Failure α} :
    earning.add constants sum = .error failure ↔
      ∃ name, earning.worth.Lacks constants name ∧ failure = .reward (.undefinedConstant name) := by
  rw [← Worth.evaluate_eq_error_iff, add]
  cases earning.worth.evaluate constants with
  | error other => exact Iff.rfl
  | ok value => exact ⟨nofun, nofun⟩

/-- Earnings come to the sum of their values, if each has one. -/
theorem Earning.foldlM_add_eq_ok_iff : earnings.foldlM (add constants) sum = .ok total ↔
    ∃ values, List.Forall₂ (fun earning value => earning.worth.Is constants value) earnings values ∧
      values.foldl (· + ·) sum = total := by
  induction earnings generalizing sum with
  | nil =>
    constructor
    · intro h
      exact ⟨[], .nil, Except.ok.inj h⟩
    · rintro ⟨_, ⟨⟩, rfl⟩
      rfl
  | cons earning rest ih =>
    rw [List.foldlM_cons, Attempt.bind_eq_ok_iff]
    constructor
    · rintro ⟨next, added, gathered⟩
      obtain ⟨value, first, rfl⟩ := add_eq_ok_iff.mp added
      obtain ⟨values, each, same⟩ := ih.mp gathered
      exact ⟨value :: values, .cons first each, same⟩
    · rintro ⟨_, each, same⟩
      cases each with
      | @cons _ value _ values first each =>
        exact ⟨sum + value, add_eq_ok_iff.mpr ⟨value, first, rfl⟩, ih.mpr ⟨values, each, same⟩⟩

/-- The first earning that lacks a constant breaks the sum off. -/
theorem Earning.foldlM_add_eq_error_iff {failure : Failure α} :
    earnings.foldlM (add constants) sum = .error failure ↔
      ∃ before earning after name, earnings = before ++ earning :: after ∧
        (∀ other ∈ before, ∃ value, other.worth.Is constants value) ∧
          earning.worth.Lacks constants name ∧ failure = .reward (.undefinedConstant name) := by
  rw [Attempt.foldlM_eq_error_iff]
  constructor
  · rintro ⟨before, earning, after, held, split, done, broken⟩
    obtain ⟨name, lacks, same⟩ := add_eq_error_iff.mp broken
    obtain ⟨values, each, -⟩ := foldlM_add_eq_ok_iff.mp done
    refine ⟨before, earning, after, name, split, fun other listed => ?_, lacks, same⟩
    obtain ⟨value, -, known⟩ := Attempt.exists_of_mem_left each listed
    exact ⟨value, known⟩
  · rintro ⟨before, earning, after, name, split, known, lacks, same⟩
    have evaluated : ∀ other ∈ before, ∃ value, other.worth.evaluate constants = .ok value :=
      fun other listed => (known other listed).imp fun _ => Worth.evaluate_eq_ok_iff.mpr
    obtain ⟨values, each⟩ := Attempt.mapM_ok evaluated
    have each := (Attempt.mapM_eq_ok_iff.mp each).imp fun _ _ => Worth.evaluate_eq_ok_iff.mp
    exact ⟨before, earning, after, _, split, foldlM_add_eq_ok_iff.mpr ⟨values, each, rfl⟩,
      add_eq_error_iff.mpr ⟨name, lacks, same⟩⟩

end Sum

namespace Problem

variable [Scalar α] {problem other : Problem α} {state : Nat} {action : String}

/-- What an action earns is gathered from the earnings that count. -/
theorem earned_eq (problem : Problem α) (state : Nat) (action : String) :
    problem.scheme.earned state action =
      (problem.counting state action).foldlM (Earning.add problem.constants) Scalar.zero := by
  have rule : ∀ (sum : α) (earning : Earning α),
      RewardScheme.addRule problem.constants state action sum earning.rule =
        if decide (earning.Counts state action) = true then earning.add problem.constants sum
        else pure sum := by
    intro sum earning
    rw [← Earning.covers_and_action]
    rfl
  rw [counting, List.foldlM_filter, RewardScheme.earned, scheme, List.foldlM_map]
  simp only [rule]

/-- The first earning that counts and lacks a constant, and the name of that. -/
def Blames (problem : Problem α) (state : Nat) (action name : String) : Prop :=
  ∃ before earning after, problem.earnings = before ++ earning :: after ∧
    (∀ other ∈ before, other.Counts state action →
      ∃ value, other.worth.Is problem.constants value) ∧
    earning.Counts state action ∧ earning.worth.Lacks problem.constants name

/-- What there is to say about what an action earns in a state. -/
structure Pays (problem : Problem α) (state : Nat) (action : String)
    (result : Except (Failure α) α) : Prop where
  /-- It cannot be told exactly if some earning counts that lacks a constant. -/
  untold_iff : (∃ failure, result = .error failure) ↔ ∃ earning ∈ problem.earnings,
    earning.Counts state action ∧ ∃ name, earning.worth.Lacks problem.constants name
  /-- Then the first such earning is to blame, and the constant that it names. -/
  blames_iff : ∀ failure, result = .error failure ↔
    ∃ name, problem.Blames state action name ∧ failure = .reward (.undefinedConstant name)
  /-- Otherwise it is the sum from left to right, starting at nought, of what the
  earnings that count are worth. -/
  sum_iff : ∀ total, result = .ok total ↔ ∃ values,
    List.Forall₂ (fun earning value => earning.worth.Is problem.constants value)
      (problem.counting state action) values ∧ values.foldl (· + ·) Scalar.zero = total

omit [Scalar α] in
/-- The first of the counting earnings that lacks a constant is the first of all
that counts and lacks one. -/
theorem blames_iff_split {name : String} : problem.Blames state action name ↔
    ∃ before earning after, problem.counting state action = before ++ earning :: after ∧
      (∀ other ∈ before, ∃ value, other.worth.Is problem.constants value) ∧
        earning.worth.Lacks problem.constants name := by
  constructor
  · rintro ⟨before, earning, after, split, known, counts, lacks⟩
    refine ⟨before.filter (·.Counts state action), earning, after.filter (·.Counts state action),
      ?_, fun other listed => ?_, lacks⟩
    · rw [counting, split, List.filter_append, List.filter_cons, if_pos (decide_eq_true counts)]
    · obtain ⟨member, counts'⟩ := List.mem_filter.mp listed
      exact known other member (of_decide_eq_true counts')
  · rintro ⟨before, earning, after, split, known, lacks⟩
    obtain ⟨first, rest, same, rfl, tail⟩ := List.filter_eq_append_iff.mp split
    obtain ⟨idle, after', rfl, skipped, counts, -⟩ := List.filter_eq_cons_iff.mp tail
    refine ⟨first ++ idle, earning, after', by rw [same, List.append_assoc], ?_,
      of_decide_eq_true counts, lacks⟩
    intro other listed counts'
    rcases List.mem_append.mp listed with member | member
    · exact known other (List.mem_filter.mpr ⟨member, decide_eq_true counts'⟩)
    · exact (skipped other member (decide_eq_true counts')).elim

/-- What an action earns is as the earnings that count say. -/
theorem pays (problem : Problem α) (state : Nat) (action : String) :
    problem.Pays state action (problem.scheme.earned state action) := by
  rw [earned_eq]
  have blames : ∀ failure, (problem.counting state action).foldlM
      (Earning.add problem.constants) Scalar.zero = .error failure ↔
        ∃ name, problem.Blames state action name ∧
          failure = .reward (.undefinedConstant name) := by
    intro failure
    rw [Earning.foldlM_add_eq_error_iff]
    constructor
    · rintro ⟨before, earning, after, name, split, known, lacks, same⟩
      exact ⟨name, blames_iff_split.mpr ⟨before, earning, after, split, known, lacks⟩, same⟩
    · rintro ⟨name, blames, same⟩
      obtain ⟨before, earning, after, split, known, lacks⟩ := blames_iff_split.mp blames
      exact ⟨before, earning, after, name, split, known, lacks, same⟩
  refine ⟨?_, blames, fun total => Earning.foldlM_add_eq_ok_iff⟩
  constructor
  · rintro ⟨failure, untold⟩
    obtain ⟨name, ⟨before, earning, after, split, -, counts, lacks⟩, -⟩ :=
      (blames failure).mp untold
    exact ⟨earning, split ▸ List.mem_append_right before List.mem_cons_self, counts, name, lacks⟩
  · rintro ⟨earning, listed, counts, name, lacks⟩
    cases told : (problem.counting state action).foldlM
        (Earning.add problem.constants) Scalar.zero with
    | error failure => exact ⟨failure, rfl⟩
    | ok total =>
      obtain ⟨values, each, -⟩ := Earning.foldlM_add_eq_ok_iff.mp told
      obtain ⟨value, -, known⟩ := Attempt.exists_of_mem_left each
        (List.mem_filter.mpr ⟨listed, decide_eq_true counts⟩)
      exact (known.not_lacks name lacks).elim

/-- Nothing matters for what an action earns but the earnings that count, and the
constants that these name. -/
theorem earned_congr {other : Problem α}
    (same : other.counting state action = problem.counting state action)
    (named : ∀ earning ∈ problem.counting state action, ∀ name, earning.worth = .constant name →
      other.constants.get? name = problem.constants.get? name) :
    other.scheme.earned state action = problem.scheme.earned state action := by
  rw [earned_eq, earned_eq, same]
  refine Attempt.foldlM_congr (fun sum earning counts => ?_) _
  have worth : earning.worth.evaluate other.constants =
      earning.worth.evaluate problem.constants := by
    cases hw : earning.worth with
    | value x => rfl
    | constant name =>
      rw [Worth.evaluate, Worth.evaluate, Constants.value, Constants.value,
        named earning counts name hw]
  rw [Earning.add, worth, ← Earning.add]

/-- For every problem, what an action earns in a state is the sum of what the
earnings that count are worth, unless one of them lacks a constant. Nothing else
matters: another problem in which the same earnings count, with the same values of
the constants that these name, pays the same, whatever other earnings it has. -/
theorem pays_of_scheme (problem : Problem α) (state : Nat) (action : String) :
    problem.Pays state action (problem.scheme.earned state action) ∧
      ∀ other : Problem α, other.counting state action = problem.counting state action →
        (∀ earning ∈ problem.counting state action, ∀ name, earning.worth = .constant name →
          other.constants.get? name = problem.constants.get? name) →
        other.scheme.earned state action = problem.scheme.earned state action :=
  ⟨problem.pays state action, fun _ same named => earned_congr same named⟩

end Problem

namespace Tariff

/-- Sending pays in the first state, and costs something anywhere. Nothing says
what the fee is that waiting costs, or sending would if it were ever asked. -/
def parcel : Problem Float where
  name := none
  mdp := ⟨[0], #[[], []]⟩
  constants := .ofList [("gain", 10)]
  earnings := [⟨"send", some [0, 0], .constant "gain"⟩, ⟨"wait", none, .constant "fee"⟩,
    ⟨"send", some [], .constant "fee"⟩, ⟨"send", none, .value (-0.1)⟩]

/-- Sending earns the sum of what counts, and waiting cannot be told. -/
theorem pays_parcel : parcel.scheme.earned 0 "send" = .ok (0 + 10 + -0.1) ∧
    parcel.scheme.earned 1 "wait" = .error (.reward (.undefinedConstant "fee")) := by
  have sent := (parcel.pays_of_scheme 0 "send").1
  have waited := (parcel.pays_of_scheme 1 "wait").1
  refine ⟨(sent.sum_iff _).mpr ⟨[10, -0.1], ?_, rfl⟩, (waited.blames_iff _).mpr ⟨"fee", ?_, rfl⟩⟩
  · exact .cons (.constant (by decide +kernel)) (.cons (.value _) .nil)
  · refine ⟨parcel.earnings.take 1, _, parcel.earnings.drop 2, rfl, ?_, ?_, rfl, by decide +kernel⟩
    · intro other listed
      obtain rfl := List.mem_singleton.mp listed
      exact fun counts => absurd counts (by decide)
    · exact ⟨rfl, nofun⟩

end Tariff

end HorizonUct
