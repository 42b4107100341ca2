import HorizonUct.Policy.Value
import HorizonUct.Proofs.Policy.Unfolding

/-!
# A chain is evaluated from the last situation to the first

In a chain whose transitions all lead further on, what may follow a situation
has been evaluated before its own turn comes. So if a property of the value of
each situation follows from the same property of those that may follow it, then
in the end all values have it. What the property says is left open here. The
evaluation breaks off exactly if the reward of an action that is taken cannot
be told, wherever in the table that is.
-/

namespace HorizonUct.Chain

variable {S α : Type} {chain : Chain S α} {index : Nat} {row : List (Nat × α)} {here : Situation S}

/-- Something may follow a situation. -/
def Moves (chain : Chain S α) (index : Nat) : Prop :=
  ∃ row, chain.rows[index]? = some row ∧ row ≠ []

/-- In a situation that something may follow, an action is taken in a state. -/
def Takes (chain : Chain S α) (index : Nat) (state : S) (label : String) : Prop :=
  chain.Moves index ∧ ∃ here, chain.situations[index]? = some here ∧
    here.state = state ∧ here.action = some label

/-- A chain that misses no row, in which each transition leads further on and an
action is taken wherever something may follow. -/
structure Onward (chain : Chain S α) : Prop where
  /-- There is a row for each situation. -/
  whole : chain.rows.size = chain.size
  /-- The start is one of the situations. -/
  start : chain.start < chain.size
  /-- Each transition leads to a later situation. -/
  ahead : ∀ {index : Nat} {row : List (Nat × α)}, chain.rows[index]? = some row →
    ∀ entry ∈ row, index < entry.1 ∧ entry.1 < chain.size
  /-- Where something may follow, an action is taken. -/
  acts : ∀ {index : Nat}, chain.Moves index → ∃ state label, chain.Takes index state label

/-- What is taken in a situation is its action in its state. -/
theorem Takes.unique {state state' : S} {label label' : String}
    (takes : chain.Takes index state label) (takes' : chain.Takes index state' label') :
    state = state' ∧ label = label' := by
  obtain ⟨-, here, hs, rfl, taken⟩ := takes
  obtain ⟨-, here', hs', rfl, taken'⟩ := takes'
  rw [hs, Option.some.injEq] at hs'
  subst hs'
  exact ⟨rfl, Option.some.inj (taken.symm.trans taken')⟩

variable [Scalar α] {reward : S → String → Except (Failure α) α} {holds : Nat → α → Prop}

section Pass

variable {values : Array α}

/-- Where nothing follows a situation keeps its value. -/
theorem evaluate_nil (hr : chain.rows[index]? = some [])
    (hs : chain.situations[index]? = some here) :
    chain.evaluate reward values index = .ok values := by
  rw [Chain.evaluate, Chain.row, hr, Chain.situation, hs]
  dsimp only [bind, Except.bind]
  cases here.action <;> rfl

/-- Where something follows, a situation is worth the reward of its action and
what is expected to follow. -/
theorem evaluate_cons (reward : S → String → Except (Failure α) α) (values : Array α)
    (hr : chain.rows[index]? = some row) (some : row ≠ [])
    (hs : chain.situations[index]? = .some here) {label : String}
    (taken : here.action = .some label) :
    chain.evaluate reward values index = do
      let earned ← reward here.state label
      let expected ← expectation values row
      return values.setIfInBounds index (earned + expected) := by
  have full : row.isEmpty = false := by
    rw [← Bool.not_eq_true, List.isEmpty_iff]
    exact some
  rw [Chain.evaluate, Chain.row, hr, Chain.situation, hs]
  dsimp only [bind, Except.bind]
  rw [taken]
  dsimp only
  rw [full]
  rfl

/-- A property of values that comes from what may follow. -/
structure Inherited (reward : S → String → Except (Failure α) α) (chain : Chain S α)
    (holds : Nat → α → Prop) : Prop where
  /-- Where nothing may follow, nought has it. -/
  rest : ∀ {index : Nat}, chain.rows[index]? = some [] → holds index Scalar.zero
  /-- Elsewhere the reward and the expectation over values that have it add up to
  one that has it. -/
  move : ∀ {index : Nat} {row : List (Nat × α)} {state : S} {label : String} {earned : α}
    {terms : List α}, chain.rows[index]? = some row → chain.Takes index state label →
      reward state label = .ok earned →
        List.Forall₂ (fun entry term => ∃ value, holds entry.1 value ∧ term = entry.2 * value)
          row terms → holds index (earned + Scalar.total terms)

/-- From a situation on all have values with a property, and those before it are
still worth nought. -/
structure Settled (holds : Nat → α → Prop) (chain : Chain S α) (first : Nat)
    (values : Array α) : Prop where
  /-- There is a value for each situation. -/
  size : values.size = chain.size
  /-- From the first one on it has the property. -/
  done : ∀ {index : Nat}, first ≤ index → index < chain.size →
    ∃ value, values[index]? = some value ∧ holds index value
  /-- Before it is nought. -/
  blank : ∀ {index : Nat}, index < first → index < chain.size →
    values[index]? = some Scalar.zero

/-- At first no situation has a value. -/
theorem settled_blank (holds : Nat → α → Prop) (chain : Chain S α) :
    Settled holds chain chain.size (Array.replicate chain.size Scalar.zero) := by
  refine ⟨Array.size_replicate, fun hle hlt => absurd hlt (Nat.not_lt.mpr hle), fun hlt _ => ?_⟩
  rw [Array.getElem?_replicate, if_pos hlt]

/-- One more situation has been given a value. -/
theorem Settled.set (settled : Settled holds chain (index + 1) values) (inside : index < chain.size)
    {value : α} (held : holds index value) :
    Settled holds chain index (values.setIfInBounds index value) := by
  have present : index < values.size := settled.size ▸ inside
  refine ⟨by rw [Array.size_setIfInBounds, settled.size], ?_, ?_⟩
  · intro other hle hlt
    rcases Nat.eq_or_lt_of_le hle with rfl | later
    · exact ⟨value, Array.getElem?_setIfInBounds_self_of_lt present, held⟩
    · rw [Array.getElem?_setIfInBounds_ne (Nat.ne_of_lt later)]
      exact settled.done later hlt
  · intro other earlier hlt
    rw [Array.getElem?_setIfInBounds_ne (Nat.ne_of_gt earlier)]
    exact settled.blank (by omega) hlt

/-- A situation that is to be worth nought has its value already. -/
theorem Settled.skip (settled : Settled holds chain (index + 1) values)
    (held : holds index Scalar.zero) : Settled holds chain index values := by
  refine ⟨settled.size, ?_, fun earlier hlt => settled.blank (by omega) hlt⟩
  intro other hle hlt
  rcases Nat.eq_or_lt_of_le hle with rfl | later
  · exact ⟨Scalar.zero, settled.blank (Nat.lt_succ_self _) hlt, held⟩
  · exact settled.done later hlt

/-- What is expected to follow is told by values that have the property. -/
theorem Settled.expectation (settled : Settled holds chain (index + 1) values)
    (ahead : ∀ entry ∈ row, index < entry.1 ∧ entry.1 < chain.size) : ∃ terms,
      expectation values row = (.ok (Scalar.total terms) : Except (Failure α) α) ∧
        List.Forall₂ (fun entry term => ∃ value, holds entry.1 value ∧ term = entry.2 * value)
          row terms := by
  have known : ∃ terms, List.Forall₂ (fun (entry : Nat × α) term => ∃ value,
      values[entry.1]? = some value ∧ holds entry.1 value ∧ term = entry.2 * value) row terms := by
    induction row with
    | nil => exact ⟨[], .nil⟩
    | cons entry rest ih =>
      obtain ⟨terms, each⟩ := ih fun other ho => ahead other (List.mem_cons_of_mem _ ho)
      obtain ⟨later, hlt⟩ := ahead entry List.mem_cons_self
      obtain ⟨value, hv, held⟩ := settled.done later hlt
      exact ⟨entry.2 * value :: terms, .cons ⟨value, hv, held, rfl⟩ each⟩
  obtain ⟨terms, each⟩ := known
  refine ⟨terms, Attempt.bind_eq_ok_iff.mpr ⟨terms, ?_, rfl⟩, each.imp fun entry term h => ?_⟩
  · refine Attempt.mapM_eq_ok_iff.mpr (each.imp fun entry term h => ?_)
    obtain ⟨value, hv, -, rfl⟩ := h
    dsimp only
    rw [hv]
  · obtain ⟨value, -, held, same⟩ := h
    exact ⟨value, held, same⟩

/-- A situation is given a value with the property, unless the reward that is
asked for cannot be told. -/
theorem Onward.evaluate (onward : chain.Onward) (inherited : Inherited reward chain holds)
    (inside : index < chain.size) (settled : Settled holds chain (index + 1) values) :
    (∃ next, chain.evaluate reward values index = .ok next ∧ Settled holds chain index next ∧
      ∀ state label, chain.Takes index state label → ∃ earned, reward state label = .ok earned) ∨
    ∃ state label failure, chain.Takes index state label ∧ reward state label = .error failure ∧
      chain.evaluate reward values index = .error failure := by
  obtain ⟨row, hr⟩ : ∃ row, chain.rows[index]? = some row :=
    ⟨_, Array.getElem?_eq_getElem (onward.whole ▸ inside)⟩
  by_cases full : row = []
  · subst full
    refine .inl ⟨values, evaluate_nil hr (Array.getElem?_eq_getElem inside),
      settled.skip (inherited.rest hr), ?_⟩
    rintro state label ⟨⟨row, hr', some⟩, -⟩
    rw [hr] at hr'
    exact absurd (Option.some.inj hr').symm some
  · obtain ⟨state, label, takes⟩ := onward.acts ⟨row, hr, full⟩
    obtain ⟨-, here, hs, state', taken⟩ := id takes
    have evaluation := evaluate_cons reward values hr full hs taken
    rw [state'] at evaluation
    cases told : reward state label with
    | error failure =>
      rw [told] at evaluation
      exact .inr ⟨state, label, failure, takes, told, evaluation⟩
    | ok earned =>
      obtain ⟨terms, expected, each⟩ := settled.expectation (onward.ahead hr)
      rw [told, expected] at evaluation
      refine .inl ⟨_, evaluation, settled.set inside (inherited.move hr takes told each), ?_⟩
      intro other label' takes'
      obtain ⟨rfl, rfl⟩ := takes.unique takes'
      exact ⟨earned, told⟩

/-- The situations before a given one are evaluated in turn, from the last to the first. -/
theorem Onward.evaluateAll (onward : chain.Onward) (inherited : Inherited reward chain holds)
    {count : Nat} (inside : count ≤ chain.size) (settled : Settled holds chain count values) :
    (∃ last, (List.range count).reverse.foldlM (Chain.evaluate reward chain) values = .ok last ∧
      Settled holds chain 0 last ∧ ∀ index < count, ∀ state label,
        chain.Takes index state label → ∃ earned, reward state label = .ok earned) ∨
    ∃ index state label failure, chain.Takes index state label ∧
      reward state label = .error failure ∧
        (List.range count).reverse.foldlM (Chain.evaluate reward chain) values =
          .error failure := by
  induction count generalizing values with
  | zero => exact .inl ⟨values, rfl, settled, fun index h => (Nat.not_lt_zero index h).elim⟩
  | succ count ih =>
    rw [List.range_succ, List.reverse_append, List.reverse_singleton, List.singleton_append,
      List.foldlM_cons]
    rcases onward.evaluate inherited inside settled with
      ⟨next, here, settled', told⟩ | ⟨state, label, failure, takes, none, here⟩
    · rw [here]
      rcases ih (by omega) settled' with ⟨last, rest, done, told'⟩ | broken
      · refine .inl ⟨last, rest, done, fun index hlt => ?_⟩
        rcases Nat.eq_or_lt_of_le (Nat.le_of_lt_succ hlt) with rfl | hlt
        · exact told
        · exact told' index hlt
      · exact .inr broken
    · rw [here]
      exact .inr ⟨count, state, label, failure, takes, none, rfl⟩

end Pass

/-- In the end each situation has a value with the property, and all rewards that
are asked for can be told, or else the evaluation breaks off at one that cannot. -/
theorem Onward.values (onward : chain.Onward) (inherited : Inherited reward chain holds) :
    (∃ values, chain.values reward = .ok values ∧
      (∀ index < chain.size, ∃ value, values[index]? = some value ∧ holds index value) ∧
      ∀ index state label, chain.Takes index state label →
        ∃ earned, reward state label = .ok earned) ∨
    ∃ index state label failure, chain.Takes index state label ∧
      reward state label = .error failure ∧ chain.values reward = .error failure := by
  rcases onward.evaluateAll inherited le_rfl (settled_blank holds chain) with
    ⟨last, ran, done, told⟩ | broken
  · refine .inl ⟨last, ran, fun index hlt => done.done (Nat.zero_le _) hlt, ?_⟩
    intro index state label takes
    obtain ⟨-, here, hs, -⟩ := id takes
    exact told index (lt_size hs) state label takes
  · exact .inr broken

/-- The chain is worth what its start is, if all rewards that are asked for can be told. -/
theorem Onward.value (onward : chain.Onward) (inherited : Inherited reward chain holds) :
    (∃ value, chain.value reward = .ok value ∧ holds chain.start value ∧
      ∀ index state label, chain.Takes index state label →
        ∃ earned, reward state label = .ok earned) ∨
    ∃ index state label failure, chain.Takes index state label ∧
      reward state label = .error failure ∧ chain.value reward = .error failure := by
  rcases onward.values inherited with
    ⟨values, ran, done, told⟩ | ⟨index, state, label, failure, takes, none, broken⟩
  · obtain ⟨value, hv, held⟩ := done chain.start onward.start
    refine .inl ⟨value, Attempt.bind_eq_ok_iff.mpr ⟨values, ran, ?_⟩, held, told⟩
    rw [hv]
    rfl
  · refine .inr ⟨index, state, label, failure, takes, none, ?_⟩
    rw [Chain.value, broken]
    rfl

/-- The chain has a value exactly if all rewards that are asked for can be told. -/
theorem Onward.value_ok_iff (onward : chain.Onward) (reward : S → String → Except (Failure α) α) :
    (∃ value, chain.value reward = .ok value) ↔ ∀ index state label,
      chain.Takes index state label → ∃ earned, reward state label = .ok earned := by
  have inherited : Inherited reward chain fun _ _ => True :=
    ⟨fun _ => trivial, fun _ _ _ _ => trivial⟩
  rcases onward.value inherited with
    ⟨value, ran, -, told⟩ | ⟨index, state, label, failure, takes, none, broken⟩
  · exact ⟨fun _ => told, fun _ => ⟨value, ran⟩⟩
  · constructor
    · rintro ⟨value, ran⟩
      rw [broken] at ran
      cases ran
    · intro told
      obtain ⟨earned, known⟩ := told index state label takes
      rw [none] at known
      cases known

end HorizonUct.Chain
