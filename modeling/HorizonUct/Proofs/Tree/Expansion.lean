import HorizonUct.Proofs.Rollout.Additions

/-!
# All children or none

To make the children of a node the navigator is asked a row of questions, in
the order of the process: how many children there are, and then what each of
them is like. Nothing is put into the tree before the last answer. So there
are three ways in which it can end. The node had its children, the first
question that is refused tells why there are none, or all of them stand at the
end of the table, in the order of the process, below a node that is changed in
nothing else. What tree it is and who put it together does not matter.
-/

namespace HorizonUct

/-- Why an attempt failed, if it did. -/
def Attempt.refusal {ε β : Type} : Except ε β → Option ε
  | .error failure => some failure
  | .ok _ => none

namespace Attempt

variable {ε β γ : Type}

/-- A row of attempts, each of which puts some questions and fails if one of
them is refused, fails for the reason of the first question that is. -/
theorem refusal_mapM {Q : Type} {attempt : β → Except ε γ} {questions : β → List Q}
    {ask : Q → Option ε}
    (h : ∀ input, refusal (attempt input) = (questions input).findSome? ask) (inputs : List β) :
    refusal (inputs.mapM attempt) = (inputs.flatMap questions).findSome? ask := by
  induction inputs with
  | nil => rfl
  | cons input rest ih =>
    rw [List.mapM_cons, List.flatMap_cons, List.findSome?_append, ← h, ← ih]
    cases attempt input with
    | error failure => rfl
    | ok value => cases rest.mapM attempt <;> rfl

/-- A row of attempts that succeeds has a result for each place, and the result
is what the attempt in this place comes to. -/
theorem results_of_mapM_range {attempt : Nat → Except ε γ} {count : Nat} {results : List γ}
    (h : (List.range count).mapM attempt = .ok results) :
    results.length = count ∧
      ∀ place result, results[place]? = some result → attempt place = .ok result := by
  have row := mapM_eq_ok_iff.mp h
  have length := row.length_eq
  rw [List.length_range] at length
  refine ⟨length.symm, fun place result listed => ?_⟩
  obtain ⟨bound, rfl⟩ := List.getElem?_eq_some_iff.mp listed
  have done := row.get (by rwa [List.length_range, length]) bound
  rwa [List.get_eq_getElem, List.getElem_range] at done

end Attempt

/-- A question that the making of children puts to a navigator. -/
inductive Question where
  /-- How many choices there are. -/
  | choiceCount
  /-- What a choice is called. -/
  | choiceLabel (choice : Nat)
  /-- How many outcomes a choice has. -/
  | outcomeCount (choice : Nat)
  /-- How probable an outcome is. -/
  | probability (choice outcome : Nat)
  /-- Where an outcome leads. -/
  | target (choice outcome : Nat)

section Questions

variable {σ S α : Type} [Navigator σ S α]

/-- Why a navigator refuses to answer a question, if it does. -/
def Question.refusal (navigator : σ) : Question → Option (Failure α)
  | .choiceCount => Attempt.refusal (Navigator.choiceCount navigator)
  | .choiceLabel choice => Attempt.refusal (Navigator.choiceLabel navigator choice)
  | .outcomeCount choice => Attempt.refusal (Navigator.outcomeCount navigator choice)
  | .probability choice outcome =>
    Attempt.refusal (Navigator.probability navigator choice outcome)
  | .target choice outcome => Attempt.refusal (Navigator.target navigator choice outcome)

namespace Role

/-- How many children a navigator says that a node in a role has. -/
def width (navigator : σ) : Role S → Except (Failure α) Nat
  | .decision _ => Navigator.choiceCount navigator
  | .chance index _ => Navigator.outcomeCount navigator index

/-- The question for the number of children of a node in a role. -/
def countQuestion : Role S → Question
  | .decision _ => .choiceCount
  | .chance index _ => .outcomeCount index

/-- The questions about one child of a node in a role. -/
def childQuestions : Role S → Nat → List Question
  | .decision _, place => [.choiceLabel place]
  | .chance index _, place => [.probability index place, .target index place]

/-- All questions about the children of a node in a role, in the order of the
process: how many there are, and then about one after the other. -/
def questions (navigator : σ) (role : Role S) : List Question :=
  role.countQuestion ::
    (List.range ((role.width navigator).toOption.getD 0)).flatMap role.childQuestions

/-- Why the first question that is refused is refused. -/
def firstRefusal (navigator : σ) (role : Role S) : Option (Failure α) :=
  (role.questions navigator).findSome? (Question.refusal navigator)

/-- The count is refused exactly if its question is. -/
theorem refusal_countQuestion (navigator : σ) (role : Role S) :
    role.countQuestion.refusal navigator = Attempt.refusal (role.width navigator) := by
  cases role <;> rfl

/-- What a navigator tells about the child in some place below a node in a
role: it is the choice, or the outcome, in this place. -/
inductive Tells [Scalar α] (navigator : σ) : Role S → Nat → Node S α → Prop where
  /-- Below a state stands a choice under its label. -/
  | choice {state : S} {place : Nat} {label : String}
      (called : Navigator.choiceLabel navigator place = .ok label) :
      Tells navigator (.decision state) place (.chance place label)
  /-- Below an action stands the state that an outcome leads to, with its probability. -/
  | outcome {index place : Nat} {label : String} {target : S} {probability : α}
      (likely : Navigator.probability navigator index place = .ok probability)
      (leads : Navigator.target navigator index place = .ok target) :
      Tells navigator (.chance index label) place (.decision target (some probability))

variable [Scalar α] {navigator : σ} {role : Role S}

/-- The child in some place below a node in a role, if the navigator can tell it. -/
def childAt (navigator : σ) (role : Role S) (place : Nat) : Except (Failure α) (Node S α) :=
  match role with
  | .decision _ => do return .chance place (← Navigator.choiceLabel navigator place)
  | .chance index _ => do
    let probability ← Navigator.probability navigator index place
    let target ← Navigator.target navigator index place
    return .decision target (some probability)

/-- The children are made one after the other, once they are counted. -/
theorem offspring_eq (navigator : σ) (role : Role S) : role.offspring navigator =
    (role.width navigator >>= fun count => (List.range count).mapM (role.childAt navigator)) := by
  cases role <;> rfl

/-- A child that is made is what the navigator tells about its place. -/
theorem tells_of_childAt {place : Nat} {child : Node S α}
    (made : role.childAt navigator place = .ok child) : role.Tells navigator place child := by
  cases role with
  | decision state =>
    obtain ⟨label, called, told⟩ := Attempt.bind_eq_ok_iff.mp made
    rw [← Except.ok.inj told]
    exact .choice called
  | chance index label =>
    obtain ⟨probability, likely, told⟩ := Attempt.bind_eq_ok_iff.mp made
    obtain ⟨target, leads, told⟩ := Attempt.bind_eq_ok_iff.mp told
    rw [← Except.ok.inj told]
    exact .outcome likely leads

/-- The making of a child fails for the reason of the first question about it
that is refused. -/
theorem refusal_childAt (navigator : σ) (role : Role S) (place : Nat) :
    Attempt.refusal (role.childAt navigator place) =
      (role.childQuestions place).findSome? (Question.refusal navigator) := by
  cases role with
  | decision state =>
    rw [childAt, childQuestions, List.findSome?_cons, List.findSome?_nil, Question.refusal]
    cases Navigator.choiceLabel navigator place <;> rfl
  | chance index label =>
    rw [childAt, childQuestions, List.findSome?_cons, List.findSome?_cons, List.findSome?_nil,
      Question.refusal, Question.refusal]
    cases Navigator.probability navigator index place with
    | error failure => rfl
    | ok probability => cases Navigator.target navigator index place <;> rfl

/-- The making of children fails for the reason of the first question that is refused. -/
theorem refusal_offspring (navigator : σ) (role : Role S) :
    Attempt.refusal (role.offspring navigator) = role.firstRefusal navigator := by
  rw [offspring_eq, firstRefusal, questions, List.findSome?_cons, refusal_countQuestion]
  cases role.width navigator with
  | error failure => rfl
  | ok count => exact Attempt.refusal_mapM (refusal_childAt navigator role) (List.range count)

/-- The children that are made are as many as the navigator says, each as it
tells about the place of that child. -/
theorem tells_of_offspring {children : List (Node S α)}
    (made : role.offspring navigator = .ok children) :
    role.width navigator = .ok children.length ∧
      ∀ place child, children[place]? = some child → role.Tells navigator place child := by
  rw [offspring_eq] at made
  obtain ⟨count, counted, made⟩ := Attempt.bind_eq_ok_iff.mp made
  obtain ⟨length, each⟩ := Attempt.results_of_mapM_range made
  exact ⟨length ▸ counted, fun place child listed => tells_of_childAt (each place child listed)⟩

end Role

end Questions

namespace Tree

variable {σ S α : Type} [Navigator σ S α] [Scalar α]

/-- A tree after all children of a node have been made. -/
structure Opened (tree : Tree S α) (id : Nat) (node : Node S α) (navigator : σ) (count : Nat)
    (new : Tree S α) : Prop where
  /-- There are as many as the navigator says. -/
  counted : node.role.width navigator = .ok count
  /-- The table is longer by so many nodes. -/
  size : new.size = tree.size + count
  /-- The node is marked and has them for children after those it had. -/
  parent : new.nodes[id]? = some
    { node with
      children := node.children ++ List.range' tree.size count
      expanded := true }
  /-- Every other node that was there is as it was. -/
  others : ∀ {other : Nat} {old : Node S α}, other ≠ id → tree.nodes[other]? = some old →
    new.nodes[other]? = some old
  /-- The new nodes stand at the end in the order of the process, each below
  the node and otherwise as it is made. -/
  added : ∀ place < count, ∃ child : Node S α, node.role.Tells navigator place child ∧
    child.Blank ∧ new.nodes[tree.size + place]? = some { child with parent := some id }

/-- The ways in which the making of the children of a node can end. -/
inductive Expansion (tree : Tree S α) (id : Nat) (node : Node S α) (navigator : σ) :
    Except (Failure α) Unit → Tree S α → Prop where
  /-- It had its children, and nothing is done. -/
  | again (expanded : node.expanded = true) : Expansion tree id node navigator (.ok ()) tree
  /-- A question is refused, the first one that is, and nothing is done. -/
  | refused {failure : Failure α} (bare : node.expanded = false)
      (first : node.role.firstRefusal navigator = some failure) :
      Expansion tree id node navigator (.error failure) tree
  /-- All questions are answered, and all children are made. -/
  | opened {count : Nat} {new : Tree S α} (bare : node.expanded = false)
      (answered : node.role.firstRefusal navigator = none)
      (grown : tree.Opened id node navigator count new) :
      Expansion tree id node navigator (.ok ()) new

/-- Adopting what a role asks for opens the node. -/
theorem opened_adopt {tree : Tree S α} {id : Nat} {node : Node S α} {navigator : σ}
    {children : List (Node S α)} (found : tree.nodes[id]? = some node)
    (made : node.role.offspring navigator = .ok children) :
    tree.Opened id node navigator children.length (tree.adopt id children) := by
  obtain ⟨counted, tells⟩ := Role.tells_of_offspring made
  refine ⟨counted, size_adopt tree id children, ?_, fun {other old} apart there => ?_,
    fun place bound => ?_⟩
  · rw [adopt_old children found, if_pos rfl]
  · rw [adopt_old children there, if_neg apart.symm]
  · have listed := List.getElem?_eq_getElem bound
    have blank := (Role.offspring_eq_ok made _ (List.getElem_mem bound)).1
    exact ⟨children[place], tells place _ listed, blank, adopt_new (lt_size found) listed⟩

/-- The children of a node are made all or none, whatever the tree and
whatever questions the navigator refuses. -/
theorem expand_all_or_none {tree : Tree S α} {id : Nat} {node : Node S α}
    (found : tree.nodes[id]? = some node) (navigator : σ) :
    tree.Expansion id node navigator (tree.expand id navigator).1
      (tree.expand id navigator).2 := by
  have reason := Role.refusal_offspring navigator node.role
  cases expanded : node.expanded with
  | true =>
    simp only [expand, node_eq_ok_iff.mpr found, expanded, if_true]
    exact .again expanded
  | false =>
    cases made : node.role.offspring navigator with
    | error failure =>
      rw [made] at reason
      simp only [expand, node_eq_ok_iff.mpr found, expanded, made, Bool.false_eq_true, if_false]
      exact .refused expanded reason.symm
    | ok children =>
      rw [made] at reason
      simp only [expand, node_eq_ok_iff.mpr found, expanded, made, Bool.false_eq_true, if_false]
      exact .opened expanded reason.symm (opened_adopt found made)

end Tree

namespace Fork

/-- A navigator that counts three choices and as many outcomes everywhere, and
has forgotten all from some place on. -/
structure Forgetful where
  /-- How many of them it can tell. -/
  known : Nat

/-- What it has forgotten it refuses to tell. -/
instance : Navigator Forgetful Nat ℚ where
  hasOneStart _ := .ok true
  start _ := .ok 0
  moveTo _ navigator := (.ok (), navigator)
  choiceCount _ := .ok 3
  choiceLabel navigator choice :=
    if choice < navigator.known then .ok "go"
    else .error (.navigation (.unknownChoice choice navigator.known))
  outcomeCount _ _ := .ok 3
  probability _ _ _ := .ok (1 / 3)
  target navigator _ outcome :=
    if outcome < navigator.known then .ok outcome
    else .error (.navigation (.unknownOutcome outcome "go" navigator.known))

/-- The ghostly tree with the children of its root, below which one was put by hand. -/
def crowd : Tree Nat ℚ := (ghost.expand 0 (Forgetful.mk 3)).2

/-- While a question is refused the tree stays as it was, then all three
children are made, and after that none, whatever the navigator has forgotten. -/
theorem expansion_ghost_crowd :
    (ghost.nodes[0]? = some ghost.root ∧ crowd.nodes[0]? = some crowd.root) ∧
      (ghost.expand 0 (Forgetful.mk 1)).1 = .error (.navigation (.unknownChoice 1 1)) ∧
      ghost.Expansion 0 ghost.root (Forgetful.mk 1) (ghost.expand 0 (Forgetful.mk 1)).1
        (ghost.expand 0 (Forgetful.mk 1)).2 ∧
      crowd.root.children = [1, 2, 3, 4] ∧
      ghost.Expansion 0 ghost.root (Forgetful.mk 3) (ghost.expand 0 (Forgetful.mk 3)).1 crowd ∧
      (crowd.expand 0 (Forgetful.mk 1)).1 = .ok () ∧
      crowd.Expansion 0 crowd.root (Forgetful.mk 1) (crowd.expand 0 (Forgetful.mk 1)).1
        (crowd.expand 0 (Forgetful.mk 1)).2 := by
  have found : ghost.nodes[0]? = some ghost.root := Tree.getElem?_root ghost
  have found' : crowd.nodes[0]? = some crowd.root := Tree.getElem?_root crowd
  exact ⟨⟨found, found'⟩, rfl, Tree.expand_all_or_none found _, rfl,
    Tree.expand_all_or_none found _, rfl, Tree.expand_all_or_none found' _⟩

end Fork

end HorizonUct
