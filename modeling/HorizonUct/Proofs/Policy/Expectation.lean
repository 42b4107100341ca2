import HorizonUct.Proofs.Fork
import HorizonUct.Proofs.Policy.Backward
import Mathlib.Algebra.BigOperators.Fin
import Mathlib.Algebra.BigOperators.Ring.Finset
import Mathlib.Tactic.IntervalCases

/-!
# A chain is worth the sum over all ways through it

A way through a chain is told by the places, in the rows it passes, of the
transitions that it takes. So it counts apart from another one that passes the
same situations, as when a row leads to one of them twice. In exact arithmetic a
chain that leads further on is worth what is earned at the end of each way from
its start, the empty one included, times the probabilities of the transitions
on it, summed over all of them. Nothing is asked of the probabilities: a row may
add up to anything.
-/

namespace HorizonUct

namespace Chain

variable {S : Type} {K : Type} [Field K] {chain : Chain S K} {earned : Nat → K}
variable {index place : Nat} {path : List Nat} {row : List (Nat × K)} {entry : Nat × K}

/-- Where the transitions at given places lead from a situation, one after the
other, and the product of their probabilities. -/
def follow (chain : Chain S K) : Nat → List Nat → Option (Nat × K)
  | index, [] => some (index, 1)
  | index, place :: path => do
    let row ← chain.rows[index]?
    let entry ← row[place]?
    (chain.follow entry.1 path).map fun (last, chance) => (last, entry.2 * chance)

/-- A way from a situation to one that something may follow. -/
def Way (chain : Chain S K) (index : Nat) (path : List Nat) : Prop :=
  ∃ last chance, chain.follow index path = some (last, chance) ∧ chain.Moves last

/-- What is earned at the end of a way, times the probabilities on it. -/
def share (chain : Chain S K) (earned : Nat → K) (index : Nat) (path : List Nat) : K :=
  (chain.follow index path).elim 0 fun (last, chance) => chance * earned last

/-- A value is the sum over all ways from a situation, of which there are finitely many. -/
def SumsUp (chain : Chain S K) (earned : Nat → K) (index : Nat) (value : K) : Prop :=
  ∃ ways : Finset (List Nat), (∀ path, path ∈ ways ↔ chain.Way index path) ∧
    value = ∑ path ∈ ways, chain.share earned index path

/-- A way that is not empty starts with a transition of the row. -/
theorem follow_cons (listed : chain.rows[index]? = some row) (there : row[place]? = some entry)
    (path : List Nat) : chain.follow index (place :: path) =
      (chain.follow entry.1 path).map fun (last, chance) => (last, entry.2 * chance) := by
  rw [follow, listed]
  dsimp only [bind, Option.bind]
  rw [there]

/-- Where there is no such transition there is no such way. -/
theorem follow_cons_none (listed : chain.rows[index]? = some row) (missing : row[place]? = none)
    (path : List Nat) : chain.follow index (place :: path) = none := by
  rw [follow, listed]
  dsimp only [bind, Option.bind]
  rw [missing]

/-- The empty way counts where something may follow. -/
theorem way_nil : chain.Way index [] ↔ chain.Moves index := by
  constructor
  · rintro ⟨last, chance, followed, moves⟩
    cases followed
    exact moves
  · exact fun moves => ⟨index, 1, rfl, moves⟩

/-- Any other goes on from the target of a transition of the row. -/
theorem way_cons (listed : chain.rows[index]? = some row) :
    chain.Way index (place :: path) ↔
      ∃ entry, row[place]? = some entry ∧ chain.Way entry.1 path := by
  cases there : row[place]? with
  | none =>
    constructor
    · rintro ⟨last, chance, followed, -⟩
      rw [follow_cons_none listed there] at followed
      cases followed
    · rintro ⟨entry, h, -⟩
      cases h
  | some entry =>
    constructor
    · rintro ⟨last, chance, followed, moves⟩
      rw [follow_cons listed there, Option.map_eq_some_iff] at followed
      obtain ⟨⟨last', chance'⟩, followed, same⟩ := followed
      cases same
      exact ⟨entry, rfl, last, chance', followed, moves⟩
    · rintro ⟨entry', h, last, chance, followed, moves⟩
      cases h
      exact ⟨last, entry.2 * chance, by rw [follow_cons listed there, followed]; rfl, moves⟩

/-- The empty way is worth what is earned at once. -/
theorem share_nil (chain : Chain S K) (earned : Nat → K) (index : Nat) :
    chain.share earned index [] = earned index :=
  one_mul (earned index)

/-- The first transition of a way takes its probability to the rest. -/
theorem share_cons (listed : chain.rows[index]? = some row) (there : row[place]? = some entry)
    (earned : Nat → K) (path : List Nat) : chain.share earned index (place :: path) =
      entry.2 * chain.share earned entry.1 path := by
  rw [share, share, follow_cons listed there]
  cases chain.follow entry.1 path with
  | none => exact (mul_zero entry.2).symm
  | some reached => exact mul_assoc entry.2 reached.2 (earned reached.1)

/-- Where nothing may follow there are no ways to sum over. -/
theorem sumsUp_rest (listed : chain.rows[index]? = some []) (earned : Nat → K) :
    chain.SumsUp earned index 0 := by
  refine ⟨∅, fun path => ⟨fun h => absurd h (Finset.notMem_empty path), fun way => ?_⟩, rfl⟩
  cases path with
  | nil =>
    obtain ⟨row, listed', full⟩ := way_nil.mp way
    rw [listed, Option.some.injEq] at listed'
    exact absurd listed'.symm full
  | cons place path =>
    obtain ⟨entry, there, -⟩ := (way_cons listed).mp way
    cases there

/-- The empty way, and all that begin at some place and go on in one of the ways
given for it. -/
def extend {count : Nat} (beyond : Fin count → Finset (List Nat)) : Finset (List Nat) :=
  insert [] (Finset.univ.biUnion fun place =>
    (beyond place).map ⟨(place.val :: ·), List.cons_injective⟩)

section Extend

variable {count : Nat} {beyond : Fin count → Finset (List Nat)}

/-- Those that begin at a place go on in one of the ways given for it. -/
theorem cons_mem_extend :
    place :: path ∈ extend beyond ↔ ∃ inside : place < count, path ∈ beyond ⟨place, inside⟩ := by
  rw [extend, Finset.mem_insert, Finset.mem_biUnion]
  constructor
  · rintro (h | ⟨first, -, h⟩)
    · cases h
    · obtain ⟨rest, there, same⟩ := Finset.mem_map.mp h
      obtain ⟨rfl, rfl⟩ := List.cons.inj same
      exact ⟨first.isLt, there⟩
  · rintro ⟨inside, there⟩
    exact .inr ⟨⟨place, inside⟩, Finset.mem_univ _, Finset.mem_map.mpr ⟨path, there, rfl⟩⟩

/-- A sum over all of them is one over the places at which they may begin. -/
theorem sum_extend (weight : List Nat → K) : ∑ path ∈ extend beyond, weight path =
    weight [] + ∑ place, ∑ path ∈ beyond place, weight (place.val :: path) := by
  have empty : [] ∉ Finset.univ.biUnion fun place : Fin count =>
      (beyond place).map ⟨(place.val :: ·), List.cons_injective⟩ := by
    intro h
    obtain ⟨place, -, h⟩ := Finset.mem_biUnion.mp h
    obtain ⟨rest, -, same⟩ := Finset.mem_map.mp h
    cases same
  have apart : Set.PairwiseDisjoint (Finset.univ : Finset (Fin count)) fun place =>
      (beyond place).map ⟨(place.val :: ·), List.cons_injective⟩ := by
    intro first _ second _ different
    refine Finset.disjoint_left.mpr fun path h h' => different (Fin.ext ?_)
    obtain ⟨rest, -, rfl⟩ := Finset.mem_map.mp h
    obtain ⟨rest', -, same⟩ := Finset.mem_map.mp h'
    exact (List.cons.inj same).1.symm
  rw [extend, Finset.sum_insert empty, Finset.sum_biUnion apart]
  exact congrArg _ (Finset.sum_congr rfl fun place _ => Finset.sum_map _ _ _)

end Extend

/-- Elsewhere there is the empty way, and those that go on from the target of each
transition. -/
theorem sumsUp_move (listed : chain.rows[index]? = some row) (full : row ≠ []) {terms : List K}
    (each : List.Forall₂ (fun entry term => ∃ value, chain.SumsUp earned entry.1 value ∧
      term = entry.2 * value) row terms) :
    chain.SumsUp earned index (earned index + terms.sum) := by
  obtain ⟨length, each⟩ := List.forall₂_iff_get.mp each
  have beyond : ∀ place : Fin row.length, ∃ ways : Finset (List Nat),
      (∀ path, path ∈ ways ↔ chain.Way row[place].1 path) ∧ terms[place] =
        row[place].2 * ∑ path ∈ ways, chain.share earned row[place].1 path := by
    intro place
    obtain ⟨value, ⟨ways, all, rfl⟩, same⟩ := each place place.isLt (length ▸ place.isLt)
    exact ⟨ways, all, same⟩
  choose beyond all same using beyond
  have there : ∀ place : Fin row.length, row[place.val]? = some row[place] :=
    fun place => List.getElem?_eq_getElem place.isLt
  refine ⟨extend beyond, fun path => ?_, ?_⟩
  · cases path with
    | nil =>
      exact iff_of_true (Finset.mem_insert_self _ _) (way_nil.mpr ⟨row, listed, full⟩)
    | cons place path =>
      rw [cons_mem_extend, way_cons listed]
      constructor
      · rintro ⟨inside, h⟩
        exact ⟨_, there ⟨place, inside⟩, (all _ path).mp h⟩
      · rintro ⟨entry, found, way⟩
        obtain ⟨inside, rfl⟩ := List.getElem?_eq_some_iff.mp found
        exact ⟨inside, (all ⟨place, inside⟩ path).mpr way⟩
  · have summed : ∀ place : Fin row.length, terms[place] =
        ∑ path ∈ beyond place, chain.share earned index (place.val :: path) := by
      intro place
      rw [same, Finset.mul_sum]
      exact Finset.sum_congr rfl fun path _ => (share_cons listed (there place) earned path).symm
    have total : terms.sum = ∑ place : Fin row.length, terms[place] := by
      rw [← Fin.sum_univ_getElem terms]
      exact ((finCongr length).sum_comp fun place => terms[place.val]).symm
    rw [sum_extend, share_nil, total, Finset.sum_congr rfl fun place _ => summed place]

variable [LinearOrder K] {reward : S → String → Except (Failure K) K}

/-- To be the sum over all ways comes from what may follow. -/
theorem inherited_sumsUp (ln sqrt : K → K)
    (told : ∀ index state label, chain.Takes index state label →
      reward state label = .ok (earned index)) :
    @Inherited S K (.exact ln sqrt) reward chain (chain.SumsUp earned) := by
  let _ := Scalar.exact ln sqrt
  refine ⟨fun {index} listed => ?_,
    fun {index row state label gained terms} listed takes h each => ?_⟩
  · rw [Scalar.zero_exact]
    exact sumsUp_rest listed earned
  · obtain rfl := Except.ok.inj ((told index state label takes).symm.trans h)
    obtain ⟨⟨row', listed', full⟩, -⟩ := takes
    rw [listed, Option.some.injEq] at listed'
    rw [Scalar.total_exact]
    exact sumsUp_move listed (listed' ▸ full) each

/-- In exact arithmetic, a chain that leads further on has a value exactly if the reward
of every action that is taken in it can be told, and then its value is the sum
over all ways from its start of what is earned at their ends, times the
probabilities on them. -/
theorem sumsUp_of_onward (ln sqrt : K → K) (reward : S → String → Except (Failure K) K)
    (onward : chain.Onward) :
    ((∃ value, @Chain.value S K (.exact ln sqrt) reward chain = .ok value) ↔
      ∀ index state label, chain.Takes index state label →
        ∃ earned, reward state label = .ok earned) ∧
    ∀ earned : Nat → K, (∀ index state label, chain.Takes index state label →
      reward state label = .ok (earned index)) →
        ∃ value, @Chain.value S K (.exact ln sqrt) reward chain = .ok value ∧
          chain.SumsUp earned chain.start value := by
  let _ := Scalar.exact ln sqrt
  refine ⟨onward.value_ok_iff reward, fun earned told => ?_⟩
  rcases onward.value (inherited_sumsUp ln sqrt told) with
    ⟨value, ran, summed, -⟩ | ⟨index, state, label, failure, takes, none, -⟩
  · exact ⟨value, ran, summed⟩
  · rw [told index state label takes] at none
    cases none

end Chain

namespace Delta

/-- A chain that parts and comes together again. One of its rows leads to a
situation twice, and none adds up to one. -/
def chain : Chain Nat ℚ where
  situations := #[⟨0, 0, some "part"⟩, ⟨1, 2, some "flow"⟩, ⟨2, 3, some "flow"⟩, ⟨3, 5, none⟩]
  rows := #[[(1, 1 / 2), (2, 1 / 2), (1, 1 / 4)], [(2, 1 / 3), (3, 1)], [(3, 2)], []]
  start := 0

/-- An action earns more in a later state, and nothing is known of the last one. -/
def reward (state : Nat) (label : String) : Except (Failure ℚ) ℚ :=
  if state < 3 then .ok (state + 1) else .error (.reward (.undefinedConstant label))

/-- It leads further on. -/
theorem onward : chain.Onward := by
  refine ⟨rfl, by decide, ?_, ?_⟩
  · intro index row listed
    have inside : index < 4 := (Array.getElem?_eq_some_iff.mp listed).1
    interval_cases index <;> cases listed <;> decide
  · rintro index ⟨row, listed, full⟩
    have inside : index < 4 := (Array.getElem?_eq_some_iff.mp listed).1
    interval_cases index
    · exact ⟨0, "part", ⟨row, listed, full⟩, _, rfl, rfl, rfl⟩
    · exact ⟨1, "flow", ⟨row, listed, full⟩, _, rfl, rfl, rfl⟩
    · exact ⟨2, "flow", ⟨row, listed, full⟩, _, rfl, rfl, rfl⟩
    · cases listed
      exact absurd rfl full

/-- The rewards that are asked for are known. -/
theorem told (index state : Nat) (label : String) (takes : chain.Takes index state label) :
    reward state label = .ok ((index : ℚ) + 1) := by
  obtain ⟨-, here, present, rfl, taken⟩ := takes
  have inside : index < 4 := (Array.getElem?_eq_some_iff.mp present).1
  obtain rfl | earlier : index = 3 ∨ index < 3 := by omega
  · cases present
    cases taken
  · interval_cases index <;> cases present <;> rfl

/-- It is worth nineteen quarters, the sum over its six ways. -/
theorem sumsUp_nineteen_quarters : chain.Onward ∧
    (∀ index state label, chain.Takes index state label →
      reward state label = .ok ((index : ℚ) + 1)) ∧
    chain.value reward = .ok (19 / 4) ∧ chain.SumsUp (fun index => (index : ℚ) + 1) 0 (19 / 4) := by
  have valued : chain.value reward = .ok (19 / 4) := Attempt.eq_ok_of_toOption (by decide +kernel)
  obtain ⟨-, summed⟩ := Chain.sumsUp_of_onward (fun x => x) (fun x => x) reward onward
  obtain ⟨value, ran, sum⟩ := summed (fun index => (index : ℚ) + 1) told
  have same : Except.ok value = (.ok (19 / 4) : Except (Failure ℚ) ℚ) := ran.symm.trans valued
  exact ⟨onward, told, valued, Except.ok.inj same ▸ sum⟩

end Delta

end HorizonUct
