import HorizonUct.Proofs.Fork
import HorizonUct.Proofs.Policy.Backward

/-!
# A chain is worth what the advice of its tree is worth

The rows of a chain that is unrolled from a tree follow the advice of the tree:
each leads to the outcomes of the action that is advised, in order, and further
on in the table. So when a situation is evaluated, from the last to the first,
what may follow it has its worth already, and in the end each situation has
what its node is worth to those who take the advice. The evaluation breaks off
exactly if they ask for a reward that cannot be told.
-/

namespace HorizonUct

variable {S α : Type} [Scalar α]

/-- Those who take the advice of a tree ask for the reward of an action in a state. -/
def Tree.Asks (tree : Tree S α) (state : S) (label : String) : Prop :=
  ∃ id advice, tree.Heeded id ∧ tree.advice id = .ok (some advice) ∧
    advice.state = state ∧ advice.label = label

namespace Chain

variable {tree : Tree S α} {chain next last : Chain S α} {index : Nat}
variable {reward : S → String → Except (Failure α) α} {advice? : Option (Advice S α)}

/-- A transition leads further on to an outcome, with its probability. -/
def LeadsTo (chain : Chain S α) (index : Nat) (entry : Nat × α) (outcome : Nat × Node S α) : Prop :=
  index < entry.1 ∧ entry.2 = outcome.2.reach.getD Scalar.zero ∧
    ∃ there, chain.situations[entry.1]? = some there ∧ there.node = outcome.1

/-- A chain that follows the advice of a tree, perhaps with rows still missing. -/
structure Follows (tree : Tree S α) (chain : Chain S α) : Prop where
  /-- Each situation stands for a node that advice leads to. -/
  heeded : ∀ {index : Nat} {here : Situation S}, chain.situations[index]? = some here →
    tree.Heeded here.node
  /-- Each row leads to the outcomes of what is advised, in order. -/
  row : ∀ {index : Nat} {row : List (Nat × α)} {here : Situation S}
    {advice? : Option (Advice S α)}, chain.rows[index]? = some row →
      chain.situations[index]? = some here → tree.advice here.node = .ok advice? →
        List.Forall₂ (chain.LeadsTo index) row (advice?.elim [] Advice.outcomes)

/-- The chain of the root alone follows any advice. -/
theorem follows_ofState (tree : Tree S α) (state : S) : Follows tree (ofState state) := by
  refine ⟨?_, ?_⟩
  · intro index here h
    have hlt : index < 1 := lt_size h
    obtain rfl : index = 0 := by omega
    cases h
    exact .root
  · intro index row here advice? h
    cases (Array.getElem?_eq_some_iff.mp h).1

/-- A transition leads to the same outcome when another row was filled in. -/
theorem LeadsTo.fillRow {entry : Nat × α} {outcome : Nat × Node S α}
    (leads : chain.LeadsTo index entry outcome) (action : Option String)
    (following : List (Situation S × α)) :
    (chain.fillRow action following).LeadsTo index entry outcome := by
  obtain ⟨later, probability, there, ht, node⟩ := leads
  exact ⟨later, probability, _, fillRow_old action following ht, by rw [node_noted, node]⟩

/-- The row that is filled in leads to the situations that are put at the end. -/
theorem leadsTo_fillRow {action : Option String} {following : List (Situation S × α)}
    {outcomes : List (Nat × Node S α)} (missing : chain.rows.size < chain.size)
    (each : List.Forall₂ (fun next entry => next.1.node = entry.1 ∧
      next.2 = entry.2.reach.getD Scalar.zero) following outcomes) :
    List.Forall₂ ((chain.fillRow action following).LeadsTo chain.rows.size)
      ((following.zipIdx chain.size).map fun entry => (entry.2, entry.1.2)) outcomes := by
  obtain ⟨length, each⟩ := List.forall₂_iff_get.mp each
  refine List.forall₂_iff_get.mpr ⟨by rw [List.length_map, List.length_zipIdx, length], ?_⟩
  intro k hk hk'
  have present : k < following.length := length ▸ hk'
  obtain ⟨node, probability⟩ := each k present hk'
  have there := situations_fillRow chain action following (chain.size + k)
  rw [if_neg (by omega), Nat.add_sub_cancel_left, List.getElem?_eq_getElem present,
    Option.map_some] at there
  simp only [List.get_eq_getElem, List.getElem_map, List.getElem_zipIdx] at node probability ⊢
  exact ⟨by dsimp only; omega, probability, _, there, node⟩

/-- Filling in the missing row as advised goes on following the advice. -/
theorem Follows.fillRow (follows : Follows tree chain) {here : Situation S}
    (missing : chain.situations[chain.rows.size]? = some here)
    (advised : tree.advice here.node = .ok advice?) (action : Option String)
    {following : List (Situation S × α)}
    (each : List.Forall₂ (fun next entry => next.1.node = entry.1 ∧
      next.2 = entry.2.reach.getD Scalar.zero) following (advice?.elim [] Advice.outcomes)) :
    Follows tree (chain.fillRow action following) := by
  refine ⟨?_, ?_⟩
  · intro index found h
    rcases fillRow_cases h with ⟨old, ho, rfl⟩ | ⟨k, next, hn, -, rfl⟩
    · rw [node_noted]
      exact follows.heeded ho
    · obtain ⟨entry, he, node, -⟩ := Attempt.exists_of_mem_left each (List.mem_of_getElem? hn)
      cases advice? with
      | none => cases he
      | some advice =>
        rw [node]
        exact (follows.heeded missing).outcome advised he
  · intro index row found advice?' hr hs advised'
    rcases rows_fillRow_cases hr with ⟨hlt, ho⟩ | ⟨rfl, rfl⟩
    · obtain ⟨old, hold⟩ : ∃ old, chain.situations[index]? = some old :=
        ⟨_, Array.getElem?_eq_getElem (hlt.trans (lt_size missing))⟩
      have kept := fillRow_old action following hold
      rw [hs, Option.some.injEq] at kept
      rw [kept, node_noted] at advised'
      exact (follows.row ho hold advised').imp fun _ _ leads => leads.fillRow action following
    · have kept := fillRow_old action following missing
      rw [hs, Option.some.injEq] at kept
      rw [kept, node_noted, advised, Except.ok.injEq] at advised'
      exact advised' ▸ leadsTo_fillRow (lt_size missing) each

/-- Filling in the next row of a chain that traces a tree goes on following its advice. -/
theorem Follows.fillNext (follows : Follows tree chain) (traces : Traces tree chain)
    (branching : tree.Branching) (h : chain.fillNext tree = .ok (some next)) :
    Follows tree next := by
  cases hs : chain.situations[chain.rows.size]? with
  | none =>
    rw [Chain.fillNext, hs] at h
    cases h
  | some here =>
    obtain ⟨node, found, role⟩ := traces.decisions hs
    have decision : node.role.isDecision = true := by rw [role]; rfl
    obtain ⟨best?, hf⟩ := branching.favourite_ok found
    cases best? with
    | none =>
      rw [Chain.fillNext, hs] at h
      dsimp only at h
      rw [hf] at h
      cases h
      exact follows.fillRow hs (Tree.advice_of_none hf) none .nil
    | some best =>
      obtain ⟨action, place, label, outcomes, -, there, -, -, chance, looked⟩ :=
        branching.favourite found decision hf
      rw [fillNext_of_favourite hs hf there looked, Except.ok.injEq, Option.some.injEq] at h
      have advised := Tree.advice_of_some hf found role there chance looked
      have states := states_of_children branching there (by rw [chance]; rfl) looked
      have each := (unrolled_of_states states).imp fun _ _ h => And.intro h.1 h.2.1
      subst h
      cases outcomes with
      | nil => exact follows.fillRow hs advised _ .nil
      | cons first rest => exact follows.fillRow hs advised _ each

/-- What each step keeps is kept when rows are filled in to the end. -/
theorem fill_keeps {holds : Chain S α → Prop}
    (step : ∀ {chain next : Chain S α}, chain.fillNext tree = .ok (some next) → holds chain →
      holds next) {bound : Nat} (h : fill tree bound chain = .ok last) (first : holds chain) :
    holds last := by
  fun_induction Chain.fill tree bound chain with
  | case1 | case3 => cases h
  | case2 => exact Except.ok.inj h ▸ first
  | case4 chain bound next hn ih => exact ih h (step hn first)

/-- The chain that a tree unrolls to follows its advice. -/
theorem follows_of_branching (branching : tree.Branching) (h : ofTree tree = .ok chain) :
    Follows tree chain := by
  obtain ⟨state, role⟩ := Role.eq_decision branching.decision_root
  have step : ∀ {chain next : Chain S α}, chain.fillNext tree = .ok (some next) →
      Traces tree chain ∧ Follows tree chain → Traces tree next ∧ Follows tree next := by
    rintro chain next hn ⟨traces, follows⟩
    rcases traces.fillNext branching with ⟨-, none⟩ | ⟨next', hn', traces', -⟩
    · rw [hn] at none
      cases none
    · rw [hn, Except.ok.injEq, Option.some.injEq] at hn'
      exact ⟨hn' ▸ traces', follows.fillNext traces branching hn⟩
  rw [ofTree, role] at h
  exact (fill_keeps step h ⟨traces_ofState role, follows_ofState tree state⟩).2

/-- The chain that a layered tree unrolls to follows its advice. -/
theorem ofTree_follows (layered : tree.Layered) (h : ofTree tree = .ok chain) :
    Follows tree chain :=
  follows_of_branching layered.branching h

/-- With a favourite a row leads to the outcomes of it, in order. -/
theorem Follows.row_of_favourite (follows : Follows tree chain) {row : List (Nat × α)}
    {here : Situation S} {best place : Nat} {node action : Node S α} {label : String}
    {outcomes : List (Nat × Node S α)} (listed : chain.rows[index]? = some row)
    (present : chain.situations[index]? = some here)
    (favoured : tree.favourite here.node = .ok (some best))
    (found : tree.nodes[here.node]? = some node) (role : node.role = .decision here.state)
    (there : tree.nodes[best]? = some action) (chance : action.role = .chance place label)
    (looked : tree.children best = .ok outcomes) :
    List.Forall₂ (chain.LeadsTo index) row outcomes := by
  have advised := Tree.advice_of_some favoured found role there chance looked
  have leads := follows.row listed present advised
  cases outcomes <;> exact leads

/-- In a chain that follows the advice and misses no row, each node that advice
leads to has a situation. -/
theorem Follows.exists_situation (follows : Follows tree chain) (traces : Traces tree chain)
    (whole : chain.rows.size = chain.size) {id : Nat} (heeded : tree.Heeded id) :
    ∃ (index : Nat) (here : Situation S), chain.situations[index]? = some here ∧
      here.node = id := by
  induction heeded with
  | root =>
    obtain ⟨here, hs, node⟩ := traces.root
    exact ⟨0, here, hs, node⟩
  | outcome before advised after ih =>
    obtain ⟨index, here, hs, rfl⟩ := ih
    obtain ⟨row, hr⟩ := exists_row whole hs
    obtain ⟨entry, -, -, -, there, ht, node⟩ :=
      Attempt.exists_of_mem_right (follows.row hr hs advised) after
    exact ⟨entry.1, there, ht, node⟩

variable {here : Situation S} {row : List (Nat × α)} {advice : Advice S α}

/-- What is advised is noted in the situation. -/
theorem Traces.taken (traces : Traces tree chain) (hr : chain.rows[index]? = some row)
    (hs : chain.situations[index]? = some here)
    (advised : tree.advice here.node = .ok (some advice)) :
    here.action = some advice.label ∧ here.state = advice.state := by
  obtain ⟨node, found, role⟩ := traces.decisions hs
  obtain ⟨-, best, node', action, place, favoured, found', role', there, chance, -⟩ :=
    Tree.advice_eq_some advised
  rw [found, Option.some.injEq] at found'
  rw [← found', role] at role'
  refine ⟨?_, Role.decision.inj role'⟩
  cases traces.advised_at hs hr with
  | nothing favoured' =>
    rw [favoured] at favoured'
    cases favoured'
  | favourite favoured' there' _ _ chance' noted =>
    rw [favoured, Except.ok.injEq, Option.some.injEq] at favoured'
    rw [favoured', there', Option.some.injEq] at there
    rw [there, chance] at chance'
    rw [noted, (Role.chance.inj chance').2]

/-- A row is empty and nothing is advised, or it leads to the outcomes of what is. -/
theorem Follows.advised (follows : Follows tree chain) (traces : Traces tree chain)
    (branching : tree.Branching) (hr : chain.rows[index]? = some row)
    (hs : chain.situations[index]? = some here) :
    (row = [] ∧ tree.advice here.node = .ok none) ∨
      ∃ advice, tree.advice here.node = .ok (some advice) ∧ row ≠ [] ∧
        List.Forall₂ (chain.LeadsTo index) row advice.outcomes := by
  obtain ⟨node, found, role⟩ := traces.decisions hs
  obtain ⟨advice?, advised⟩ := branching.advice_ok found (by rw [role]; rfl)
  have leads := follows.row hr hs advised
  cases advice? with
  | none => exact .inl ⟨List.forall₂_nil_right_iff.mp leads, advised⟩
  | some advice =>
    refine .inr ⟨advice, advised, ?_, leads⟩
    rintro rfl
    exact (Tree.advice_eq_some advised).1 (List.forall₂_nil_left_iff.mp leads)

/-- An action is taken in a situation exactly if it is advised there. -/
theorem Follows.takes_iff (follows : Follows tree chain) (traces : Traces tree chain)
    (branching : tree.Branching) (whole : chain.rows.size = chain.size)
    (hs : chain.situations[index]? = some here) {state : S} {label : String} :
    chain.Takes index state label ↔ ∃ advice, tree.advice here.node = .ok (some advice) ∧
      advice.state = state ∧ advice.label = label := by
  obtain ⟨row, hr⟩ := exists_row whole hs
  constructor
  · rintro ⟨⟨row', hr', full⟩, here', hs', rfl, taken⟩
    rw [hr, Option.some.injEq] at hr'
    rw [hs, Option.some.injEq] at hs'
    subst hr' hs'
    rcases follows.advised traces branching hr hs with ⟨empty, -⟩ | ⟨advice, advised, -, -⟩
    · exact absurd empty full
    · obtain ⟨taken', state⟩ := traces.taken hr hs advised
      exact ⟨advice, advised, state.symm, Option.some.inj (taken'.symm.trans taken)⟩
  · rintro ⟨advice, advised, rfl, rfl⟩
    obtain ⟨taken, state⟩ := traces.taken hr hs advised
    refine ⟨⟨row, hr, ?_⟩, here, hs, state, taken⟩
    rcases follows.advised traces branching hr hs with ⟨-, none⟩ | ⟨-, -, full, -⟩
    · rw [advised] at none
      cases none
    · exact full

/-- A chain that follows the advice of a tree leads further on. -/
theorem Follows.onward (follows : Follows tree chain) (traces : Traces tree chain)
    (branching : tree.Branching) (whole : chain.rows.size = chain.size) : chain.Onward := by
  refine ⟨whole, ?_, ?_, ?_⟩
  · obtain ⟨here, hs, -⟩ := traces.root
    exact traces.start ▸ lt_size hs
  · intro index row hr entry he
    obtain ⟨here, hs, -⟩ := traces.advised hr
    rcases follows.advised traces branching hr hs with ⟨rfl, -⟩ | ⟨advice, -, -, leads⟩
    · cases he
    · obtain ⟨outcome, -, later, -, there, ht, -⟩ := Attempt.exists_of_mem_left leads he
      exact ⟨later, lt_size ht⟩
  · rintro index ⟨row, hr, full⟩
    obtain ⟨here, hs, -⟩ := traces.advised hr
    rcases follows.advised traces branching hr hs with ⟨empty, -⟩ | ⟨advice, advised, -, -⟩
    · exact absurd empty full
    · exact ⟨advice.state, advice.label,
        (follows.takes_iff traces branching whole hs).mpr ⟨advice, advised, rfl, rfl⟩⟩

/-- To be worth what the node is comes from what may follow. -/
theorem Follows.inherited (follows : Follows tree chain) (traces : Traces tree chain)
    (layered : tree.Layered) (whole : chain.rows.size = chain.size)
    (reward : S → String → Except (Failure α) α) :
    Inherited reward chain fun index value => ∀ here, chain.situations[index]? = some here →
      tree.worth reward here.node = .ok value := by
  refine ⟨?_, ?_⟩
  · intro index hr here hs
    obtain ⟨node, found, -⟩ := traces.decisions hs
    rcases follows.advised traces layered.branching hr hs with ⟨-, none⟩ | ⟨-, -, full, -⟩
    · exact layered.toLinked.worth_of_none (Tree.lt_size found) none
    · exact absurd rfl full
  · intro index row state label earned terms hr takes told each here hs
    obtain ⟨advice, advised, rfl, rfl⟩ :=
      (follows.takes_iff traces layered.branching whole hs).mp takes
    obtain ⟨node, found, -⟩ := traces.decisions hs
    have leads : List.Forall₂ (chain.LeadsTo index) row advice.outcomes :=
      follows.row hr hs advised
    rw [layered.toLinked.worth_of_some (Tree.lt_size found) advised, Advice.worth_eq_ok_iff]
    refine ⟨earned, terms, told, Attempt.forall₂_join leads each ?_, rfl⟩
    rintro entry outcome term ⟨-, probability, there, ht, node⟩ ⟨value, worth, rfl⟩
    exact ⟨value, node ▸ worth there ht, by rw [probability]⟩

/-- In the end each situation has what its node is worth, and all rewards that
are asked for can be told, or else the evaluation breaks off at one that cannot. -/
theorem Follows.values (follows : Follows tree chain) (traces : Traces tree chain)
    (layered : tree.Layered) (whole : chain.rows.size = chain.size)
    (reward : S → String → Except (Failure α) α) :
    (∃ values, chain.values reward = .ok values ∧
      (∀ (index : Nat) (here : Situation S), chain.situations[index]? = some here →
        ∃ value, values[index]? = some value ∧ tree.worth reward here.node = .ok value) ∧
      ∀ state label, tree.Asks state label → ∃ earned, reward state label = .ok earned) ∨
      ∃ state label failure, tree.Asks state label ∧ reward state label = .error failure ∧
        chain.values reward = .error failure := by
  have branching := layered.branching
  rcases (follows.onward traces branching whole).values
      (follows.inherited traces layered whole reward) with
    ⟨values, ran, done, told⟩ | ⟨index, state, label, failure, takes, none, broken⟩
  · refine .inl ⟨values, ran, fun index here hs => ?_, ?_⟩
    · obtain ⟨value, hv, worth⟩ := done index (lt_size hs)
      exact ⟨value, hv, worth here hs⟩
    · rintro state label ⟨id, advice, heeded, advised, rfl, rfl⟩
      obtain ⟨index, here, hs, rfl⟩ := follows.exists_situation traces whole heeded
      exact told index _ _
        ((follows.takes_iff traces branching whole hs).mpr ⟨advice, advised, rfl, rfl⟩)
  · obtain ⟨-, here, hs, -⟩ := id takes
    obtain ⟨advice, advised, rfl, rfl⟩ := (follows.takes_iff traces branching whole hs).mp takes
    exact .inr ⟨_, _, failure, ⟨here.node, advice, follows.heeded hs, advised, rfl, rfl⟩, none,
      broken⟩

end Chain

namespace Tree

/-- If the worth of the root can be told, then so can every reward that is asked for. -/
theorem Asks.told {tree : Tree S α} {reward : S → String → Except (Failure α) α} {state : S}
    {label : String} (asks : tree.Asks state label) (linked : tree.Linked) {value : α}
    (h : tree.worth reward 0 = .ok value) : ∃ earned, reward state label = .ok earned := by
  obtain ⟨id, advice, heeded, advised, rfl, rfl⟩ := asks
  obtain ⟨here, hh⟩ := heeded.worth_ok linked h
  rw [linked.worth_of_some (heeded.lt_size linked) advised] at hh
  obtain ⟨earned, -, told, -⟩ := Advice.worth_eq_ok_iff.mp hh
  exact ⟨earned, told⟩

/-- For every tree that rollouts can have grown, what a state is worth to those
who take the advice follows from what the outcomes of the favourite action are
worth, and the chain of the tree is worth what the root is. It has no value
exactly if a reward that is asked for cannot be told, and then for that reason. -/
theorem worth_of_grown {σ : Type} [Navigator σ S α] {kind : σ → Prop} {root : S}
    {outcomes : List (Except (Failure α) (Rollout α))} {tree : Tree S α}
    (grown : Tree.Grown kind root outcomes tree) (reward : S → String → Except (Failure α) α) :
    (∀ id, id < tree.size →
      tree.worth reward id = tree.advisedWorth reward (tree.worth reward) id) ∧
    ∃ chain, Chain.ofTree tree = .ok chain ∧
      (∀ value, chain.value reward = .ok value ↔ tree.worth reward 0 = .ok value) ∧
      (∀ failure, chain.value reward = .error failure →
        ∃ state label, tree.Asks state label ∧ reward state label = .error failure) ∧
      ∀ state label failure, tree.Asks state label → reward state label = .error failure →
        ∃ reported, chain.value reward = .error reported := by
  have layered := grown.layered
  have linked := layered.toLinked
  obtain ⟨chain, unrolled, traces, whole⟩ := Chain.ofTree_ok layered
  have follows := Chain.ofTree_follows layered unrolled
  refine ⟨fun id here => linked.worth_eq here, chain, unrolled, ?_⟩
  rcases follows.values traces layered whole reward with
    ⟨values, ran, done, told⟩ | ⟨state, label, failure, asks, none, broken⟩
  · obtain ⟨first, hf, node⟩ := traces.root
    obtain ⟨value, hv, worth⟩ := done 0 first hf
    have valued : chain.value reward = .ok value := by
      rw [Chain.value, ran, traces.start]
      dsimp only [bind, Except.bind]
      rw [hv]
      rfl
    rw [node] at worth
    rw [valued, worth]
    refine ⟨fun _ => Iff.rfl, fun failure h => ?_, fun state label failure asks none => ?_⟩
    · cases h
    · obtain ⟨earned, known⟩ := told state label asks
      rw [none] at known
      cases known
  · have valued : chain.value reward = .error failure := by
      rw [Chain.value, broken]
      rfl
    rw [valued]
    refine ⟨fun value => ⟨fun h => ?_, fun worth => ?_⟩, ?_, fun _ _ _ _ _ => ⟨failure, rfl⟩⟩
    · cases h
    · obtain ⟨earned, known⟩ := asks.told linked worth
      rw [none] at known
      cases known
    · intro reported same
      cases same
      exact ⟨state, label, asks, none⟩

end Tree

/-- The tree of three rollouts, one of which breaks off, unrolls to a chain that
is worth two, as the advice of the tree is. -/
theorem Fork.worth_of_short_long_side : ∃ chain, Chain.ofTree side.2.tree = .ok chain ∧
    chain.value reward = .ok 2 ∧ side.2.tree.worth reward 0 = .ok 2 := by
  have two : (side.2.tree.worth reward 0).toOption = some 2 := by decide +kernel
  obtain ⟨-, chain, unrolled, same, -⟩ := Tree.worth_of_grown grown_short_long_side reward
  cases worth : side.2.tree.worth reward 0 with
  | error failure =>
    rw [worth] at two
    cases two
  | ok value =>
    obtain rfl : value = 2 := by
      rw [worth] at two
      exact Option.some.inj two
    exact ⟨chain, unrolled, (same 2).mpr worth, rfl⟩

end HorizonUct
