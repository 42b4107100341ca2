import HorizonUct.Problem.Document
import HorizonUct.Proofs.Mdp.Earnings
import HorizonUct.Proofs.Planner.Exploration
import HorizonUct.Proofs.Planner.Isolation
import HorizonUct.Proofs.Rollout.Safety

/-!
# Problems that were read can be explored

A problem that was read names no state that is not there, whatever it was
decoded by, since it has been checked. So neither a search over it nor a rollout
ever gets lost. If one of them fails, the text is to blame: it has not one
initial state, the outcomes of a choice make no distribution, or an earning
names a constant that is not defined.
-/

namespace HorizonUct

section Table

variable {υ α : Type} [Scalar α] [DrawSource υ α] {planner : Planner (Cursor α) υ Nat α}

/-- A search over a closed table with one initial state comes to its end unless
a choice is unfair or unpaid. -/
theorem Planner.search_blames (closed : planner.navigator.mdp.Closed) {horizon budget : Nat}
    (valid : ({ planner.settings with horizon := horizon, budget := budget } : Settings α).check =
      .ok ())
    (one : planner.navigator.mdp.starts.length = 1) {clock : Nat → Nat} {failure : Failure α}
    (h : (planner.searchWithin clock horizon budget).1 = .error failure) :
    planner.navigator.mdp.Blames planner.rules failure := by
  obtain ⟨root, one⟩ := List.length_eq_one_iff.mp one
  obtain ⟨moment, bias, passes, broken⟩ := breaks_of_search (plant_one one valid) h
  obtain ⟨table, -, root', rollouts, start, explored⟩ :=
    passes.explored (Cursor.tracks planner.navigator.mdp) rfl
  have settled := explored.grown.settled (closed.starts root' (Cursor.mem_starts start))
  exact moment.progress.rollout_blames closed settled table moment.progress.tree.size_pos horizon
    broken

end Table

namespace Problem

variable {α : Type} [Scalar α]

/-- What is to blame if a search or a rollout over a problem fails, given that
no state is named that is not there. -/
inductive Defect (problem : Problem α) (tolerance : α) : Failure α → Prop where
  /-- The outcomes of a choice make no distribution, or there are none. -/
  | unfair {state : Nat} {choice : Choice α} (node : Nat)
      (offered : problem.mdp.Offers state choice)
      (refused : choice.outcomes.map Outcome.probability = [] ∨
        isDistribution tolerance (choice.outcomes.map Outcome.probability) = false) :
      Defect problem tolerance
        (.notADistribution node (Scalar.total (choice.outcomes.map Outcome.probability)))
  /-- An earning that counts for a choice names a constant that is not defined. -/
  | undefined {state : Nat} {choice : Choice α} {earning : Earning α} {name : String}
      (offered : problem.mdp.Offers state choice) (listed : earning ∈ problem.earnings)
      (counts : earning.covers state = true) (action : earning.action = choice.action)
      (worth : earning.worth = .constant name) (missing : problem.constants.get? name = none) :
      Defect problem tolerance (.reward (.undefinedConstant name))

/-- What a choice earns is told unless an earning that counts names a constant
that is not defined. -/
theorem undefined_of_earned {problem : Problem α} {state : Nat} {action : String}
    {failure : Failure α} (h : problem.scheme.earned state action = .error failure) :
    ∃ earning ∈ problem.earnings, ∃ name, earning.covers state = true ∧
      earning.action = action ∧ earning.worth = .constant name ∧
        problem.constants.get? name = none ∧ failure = .reward (.undefinedConstant name) := by
  obtain ⟨name, ⟨before, earning, after, split, -, ⟨about, inside⟩, worth, missing⟩, same⟩ :=
    ((problem.pays state action).blames_iff failure).mp h
  exact ⟨earning, split ▸ List.mem_append_right before List.mem_cons_self, name,
    Earning.covers_iff.mpr inside, about, worth, missing, same⟩

/-- If a choice of a problem is unfair or unpaid, the problem has a defect. -/
theorem defect_of_blames {problem : Problem α} {rules : Rules Nat α} {failure : Failure α}
    (reward : rules.reward = problem.scheme.earned) (blames : problem.mdp.Blames rules failure) :
    problem.Defect rules.tolerance failure := by
  cases blames with
  | unfair node offered refused => exact .unfair node offered refused
  | unpaid offered untold =>
    rw [reward] at untold
    obtain ⟨earning, listed, name, counts, action, worth, missing, rfl⟩ :=
      undefined_of_earned untold
    exact .undefined offered listed counts action worth missing

/-- A planner for a problem and its rewards, with settings that hold for a search
of this horizon and budget. -/
structure Serves {υ : Type} (problem : Problem α) (planner : Planner (Cursor α) υ Nat α)
    (horizon budget : Nat) : Prop where
  /-- The cursor is one of the decision process. -/
  table : planner.navigator.mdp = problem.mdp
  /-- Actions earn what the problem says. -/
  reward : planner.reward = problem.scheme.earned
  /-- The settings hold. -/
  valid : ({ planner.settings with horizon := horizon, budget := budget } : Settings α).check =
    .ok ()

/-- That searches and rollouts over a problem fail only for reasons that the
problem itself gives. -/
structure Explorable (problem : Problem α) : Prop where
  /-- A search is refused exactly if there is not one initial state. -/
  refused : ∀ {υ : Type} [DrawSource υ α] (planner : Planner (Cursor α) υ Nat α)
    (clock : Nat → Nat) {horizon budget : Nat}, problem.Serves planner horizon budget →
      ((planner.searchWithin clock horizon budget).1 = .error .ambiguousStart ↔
        problem.mdp.starts.length ≠ 1)
  /-- Otherwise it fails by a defect only. -/
  search : ∀ {υ : Type} [DrawSource υ α] (planner : Planner (Cursor α) υ Nat α)
    (clock : Nat → Nat) {horizon budget : Nat}, problem.Serves planner horizon budget →
      problem.mdp.starts.length = 1 → ∀ {failure : Failure α},
        (planner.searchWithin clock horizon budget).1 = .error failure →
          problem.Defect planner.settings.tolerance failure
  /-- And so does a rollout from any node of any tree that was grown from a state
  of the problem by rollouts over it, whatever came of them. -/
  rollout : ∀ {υ : Type} [DrawSource υ α] {root : Nat}
    {outcomes : List (Except (Failure α) (Rollout α))} (progress : Progress (Cursor α) υ Nat α)
    {start : Nat} (horizon : Nat) (bias tolerance : α), root < problem.mdp.states.size →
      Tree.Grown (fun cursor : Cursor α => cursor.mdp = problem.mdp) root outcomes progress.tree →
        progress.navigator.mdp = problem.mdp → start < progress.tree.size →
          ∀ {failure : Failure α}, (progress.rollout ⟨problem.scheme.earned, tolerance⟩ start
            horizon bias).1 = .error failure → problem.Defect tolerance failure
  /-- Whether it comes to its end or not, the nodes that it changes are in the tree. -/
  within : ∀ {υ : Type} [DrawSource υ α] {root : Nat}
    {outcomes : List (Except (Failure α) (Rollout α))} (progress : Progress (Cursor α) υ Nat α)
    (start horizon : Nat) (bias tolerance : α),
      Tree.Grown (fun cursor : Cursor α => cursor.mdp = problem.mdp) root outcomes progress.tree →
        let descent := progress.descent ⟨problem.scheme.earned, tolerance⟩ start horizon bias
        ∀ entry ∈ descent.trail, entry.1 < descent.progress.tree.size

/-- A search over a checked problem with one initial state fails by a defect only. -/
theorem defect_of_search {υ : Type} [DrawSource υ α] {problem : Problem α}
    (closed : problem.mdp.Closed) {planner : Planner (Cursor α) υ Nat α} {horizon budget : Nat}
    (serves : problem.Serves planner horizon budget) (one : problem.mdp.starts.length = 1)
    {clock : Nat → Nat} {failure : Failure α}
    (broken : (planner.searchWithin clock horizon budget).1 = .error failure) :
    problem.Defect planner.settings.tolerance failure := by
  have table := serves.table
  rw [← table] at closed one
  have blames := planner.search_blames closed serves.valid one broken
  rw [table] at blames
  exact defect_of_blames serves.reward blames

/-- A problem whose process passes the check can be explored. -/
theorem explorable_of_check {problem : Problem α} (checked : problem.mdp.check = .ok ()) :
    problem.Explorable := by
  have closed := Mdp.closed_of_check checked
  refine ⟨?_, ?_, ?_, ?_⟩
  · intro υ _ planner clock horizon budget serves
    constructor
    · intro broken one
      cases defect_of_search closed serves one broken
    · intro many
      rw [← serves.table] at many
      rw [Planner.searchWithin, Planner.plant_many many serves.valid]
  · intro υ _ planner clock horizon budget serves one failure broken
    exact defect_of_search closed serves one broken
  · intro υ _ root outcomes progress start horizon bias tolerance inside grown table there failure
      broken
    exact defect_of_blames rfl
      (progress.rollout_blames closed (grown.settled inside) table there horizon broken)
  · intro υ _ root outcomes progress start horizon bias tolerance _
    exact progress.lt_size_of_descent _ start horizon bias

/-- Whatever a problem was decoded from, and by whatever decoder, it can be explored
if it was accepted on the check of its process. -/
theorem explorable_of_accept {decode : String → Option (Problem α)} {text : String}
    {problem : Problem α}
    (accepted : Text.accept decode (fun problem => problem.mdp.check) text = .ok problem) :
    problem.Explorable := by
  have checked := Text.check_of_accept accepted
  exact explorable_of_check checked

/-- Whatever the text is that a problem was read from, no search over it and no
rollout ever asks for a state, a choice, an outcome or a node that is not there. -/
theorem explorable_of_read {text : String} {problem : Problem Float}
    (read : Problem.read text = .ok problem) : problem.Explorable :=
  explorable_of_accept read

end Problem

namespace Toll

/-- A road of two states. Nothing says what the fee is that its toll names. -/
def text : String :=
  "\x7b\"model\": \x7b\"initial_states\": [0], \"states\": [" ++
    "\x7b\"choices\": [\x7b\"action\": \"pass\", \"outcomes\": [" ++
      "\x7b\"probability\": 0.5, \"target\": 0\x7d, " ++
      "\x7b\"probability\": 0.5, \"target\": 1\x7d]\x7d]\x7d, \x7b\x7d]\x7d, " ++
    "\"rewards\": [\x7b\"action\": \"pass\", \"reward\": \"fee\"\x7d]\x7d"

/-- A rollout of one action from the initial state. -/
def first (problem : Problem Float) : Except (Failure Float) (Rollout Float) :=
  let progress : Progress (Cursor Float) (Replay Float) Nat Float :=
    ⟨.ofRoot 0, .ofMdp problem.mdp, ⟨#[0], 0, by decide⟩, []⟩
  (progress.rollout ⟨problem.scheme.earned, 0⟩ 0 1 0).1

/-- The text is read and can be explored: when the toll cannot be paid, its
problem is to blame. -/
theorem explorable : ∃ problem, Problem.read text = .ok problem ∧ problem.Explorable ∧
    ∃ failure, first problem = .error failure ∧ problem.Defect 0 failure := by
  have refused : ((Problem.read text).toOption.map fun problem =>
      (decide (0 < problem.mdp.states.size), (first problem).isOk)) = some (true, false) := by
    decide +kernel
  cases read : Problem.read text with
  | error failure =>
    rw [read] at refused
    cases refused
  | ok problem =>
    rw [read] at refused
    have refused := Prod.mk.inj (Option.some.inj refused)
    have explorable := Problem.explorable_of_read read
    cases broken : first problem with
    | ok made =>
      rw [broken] at refused
      cases refused.2
    | error failure =>
      refine ⟨problem, rfl, explorable, failure, broken, ?_⟩
      exact explorable.rollout _ 1 0 0 (of_decide_eq_true refused.1) .planted rfl
        (Tree.size_pos _) broken

end Toll

end HorizonUct
