import HorizonUct.Proofs.Binary64.Magnitude
import HorizonUct.Proofs.Tree.Eclipse

/-!
# Without a bias exploring exploits

Where every child has been visited, exploring and exploiting run through the same
children, the one by scores, the other by means. If the scores compare as the means
do, and these are numbers, both go on with the first of the greatest.

With doubles and a bias of nought that is so, even for infinite means and for
noughts of either sign. Nought times the bonus is nought then, since the logarithm
of a count is finite and not negative, and nought leaves a mean as it is.
-/

namespace HorizonUct

/-- Values that compare alike have the same foremost entry. -/
theorem Foremost.congr {α β : Type} [Scalar α] (compares : Scalar.Comparable α)
    {value value' : β → α} {entries : List β} {winner : β}
    (alike : ∀ entry ∈ entries, ∀ other ∈ entries,
      Scalar.le (value entry) (value other) = Scalar.le (value' entry) (value' other))
    (foremost : Foremost value entries winner) : Foremost value' entries winner := by
  have number : ∀ entry ∈ entries,
      Scalar.isUndefined (value entry) = Scalar.isUndefined (value' entry) :=
    fun entry he => congrArg (!·) (alike entry he entry he)
  have mem := foremost.mem
  obtain ⟨before, after, split, less, most⟩ := foremost.split
  refine ⟨number winner mem ▸ foremost.number, before, after, split, fun entry he defined => ?_,
    fun entry he defined => ?_⟩
  · have among : entry ∈ entries := split ▸ List.mem_append_left _ he
    rw [← number entry among] at defined
    obtain ⟨-, -, above⟩ := compares.lt_iff.mp (less entry he defined)
    refine compares.lt_iff.mpr
      ⟨number entry among ▸ defined, number winner mem ▸ foremost.number, ?_⟩
    rw [← alike winner mem entry among, above]
  · have among : entry ∈ entries :=
      split ▸ List.mem_append_right _ (List.mem_cons_of_mem _ he)
    rw [← number entry among] at defined
    rw [← alike entry among winner mem, most entry he defined]

namespace Scalar

/-- What is documented of a logarithm of doubles, however it is rounded: at finite
doubles from one on it is neither negative nor infinite. -/
structure Logarithmic (ln : Float → Float) : Prop where
  /-- It is not negative. -/
  nonneg : ∀ {x : Float}, 1 ≤ x → x.isFinite = true → 0 ≤ ln x
  /-- It is finite. -/
  finite : ∀ {x : Float}, 1 ≤ x → x.isFinite = true → (ln x).isFinite = true

open Binary64 (Magnitude Undefined)

/-- The bonus for rarity is finite and not negative. -/
theorem Logarithmic.magnitude {ln : Float → Float} (logarithmic : Logarithmic ln) {visits n : Nat}
    (visited : 0 < visits) (countable : visits < 2 ^ 64) (tried : 0 < n) :
    Magnitude (ln (Float.ofNat visits) / Float.ofNat n).sqrt := by
  have least := Binary64.one_le_ofNat visited
  have finite := (Binary64.magnitude_iff.mp (Binary64.magnitude_ofNat visited countable)).2
  have logarithm : Magnitude (ln (Float.ofNat visits)) :=
    Binary64.magnitude_iff.mpr ⟨logarithmic.nonneg least finite, logarithmic.finite least finite⟩
  exact (logarithm.div_ofNat tried).sqrt

/-- With nought times magnitudes in front, numbers compare as they do without. -/
theorem le_zero_mul_add {x y a b : Float} (hx : Magnitude x) (hy : Magnitude y)
    (na : ¬ Undefined a) (nb : ¬ Undefined b) : 0 * x + a ≤ 0 * y + b ↔ a ≤ b := by
  obtain ⟨sign, zero⟩ := hx.zero_mul
  obtain ⟨sign', zero'⟩ := hy.zero_mul
  obtain ⟨number, same⟩ := Binary64.valueOf_add_of_zero zero na
  obtain ⟨number', same'⟩ := Binary64.valueOf_add_of_zero zero' nb
  rw [Binary64.le_iff, Binary64.le_iff, same, same']
  tauto

end Scalar

namespace Tree

variable {S α : Type} {tree : Tree S α} {id : Nat} {node : Node S α}
variable {children : List (Nat × Node S α)}

/-- If all children have been visited, they are the candidates. -/
theorem visited_eq_self (tried : ∀ entry ∈ children, 0 < entry.2.visits) :
    visited children = children :=
  List.filter_eq_self.mpr fun entry he => decide_eq_true (tried entry he)

variable [Scalar α]

/-- If scores compare as means do, and all children have been visited and have
numbers for means, exploring goes on as exploiting does. -/
theorem select_eq_of_alike (compares : Scalar.Comparable α) (read : Score α → α)
    (value : ∀ score, read (.value score) = score)
    (untried : Scalar.isUnbounded (read .untried) = true) (found : tree.nodes[id]? = some node)
    (looked : tree.children id = .ok children) {bias : α}
    (tried : ∀ entry ∈ children, 0 < entry.2.visits)
    (numbers : ∀ entry ∈ children, Scalar.isUndefined entry.2.mean = false)
    (alike : ∀ entry ∈ children, ∀ other ∈ children,
      Scalar.le (read (entry.2.score node.visits bias)) (read (other.2.score node.visits bias)) =
        Scalar.le entry.2.mean other.2.mean) :
    ∃ best?, tree.select id bias = .ok best? ∧ tree.favourite id = .ok best? := by
  cases children with
  | nil =>
    refine ⟨none, ?_, (favourite_eq_none_iff looked).mpr nofun⟩
    rw [select_of_children found looked]
    rfl
  | cons first rest =>
    obtain ⟨picked, selected, leads⟩ :=
      leads_of_select compares value untried found looked (List.cons_ne_nil first rest) bias
    -- the score of the first child is a number, since its mean is
    have foremost : Foremost (fun entry => read (entry.2.score node.visits bias))
        (first :: rest) picked := by
      cases leads with
      | foremost foremost => exact foremost
      | first none =>
        have number := numbers first List.mem_cons_self
        have undefined := none first List.mem_cons_self
        rw [Scalar.isUndefined, alike first List.mem_cons_self first List.mem_cons_self,
          ← Scalar.isUndefined, number] at undefined
        cases undefined
    obtain ⟨child, favoured, outlasts⟩ :=
      exists_favourite compares looked List.mem_cons_self (tried first List.mem_cons_self)
    rw [visited_eq_self tried] at outlasts
    have same := (foremost.congr compares alike).unique compares (outlasts.foremost numbers)
    exact ⟨_, same ▸ selected, favoured⟩

/-- With doubles, a logarithm as documented and a bias of nought, exploring goes on as
exploiting does, if the node has visits, no more than 64 bits can count, and all its
children have visits and numbers for means, be they infinite. -/
theorem select_zero_eq_favourite {S : Type} {ln : Float → Float}
    (logarithmic : Scalar.Logarithmic ln) {tree : Tree S Float} {id : Nat} {node : Node S Float}
    {children : List (Nat × Node S Float)} (found : tree.nodes[id]? = some node)
    (looked : tree.children id = .ok children) (visited : 0 < node.visits)
    (countable : node.visits < 2 ^ 64) (tried : ∀ entry ∈ children, 0 < entry.2.visits)
    (numbers : ∀ entry ∈ children,
      @Scalar.isUndefined Float (.binary64 ln) entry.2.mean = false) :
    ∃ best?, @select S Float (.binary64 ln) tree id 0 = .ok best? ∧
      @favourite S Float (.binary64 ln) tree id = .ok best? := by
  let _ := Scalar.binary64 ln
  refine select_eq_of_alike (Scalar.comparable_binary64 ln) Score.toFloat (fun _ => rfl)
    (Scalar.isUnbounded_untried ln) found looked tried numbers fun entry he other ho => ?_
  have score : ∀ entry ∈ children, (entry.2.score node.visits 0).toFloat =
      0 * (ln (Float.ofNat node.visits) / Float.ofNat entry.2.visits).sqrt + entry.2.mean := by
    intro entry he
    rw [Node.score, if_neg (tried entry he).ne']
    rfl
  have number : ∀ entry ∈ children, ¬ Binary64.Undefined entry.2.mean :=
    fun entry he => (Scalar.isUndefined_binary64 ln _).mp (numbers entry he)
  rw [score entry he, score other ho]
  exact decide_eq_decide.mpr (Scalar.le_zero_mul_add
    (logarithmic.magnitude visited countable (tried entry he))
    (logarithmic.magnitude visited countable (tried other ho)) (number entry he) (number other ho))

end Tree

/-- The listed logarithms are as documented, nought standing in for the others. -/
theorem Doubles.logarithmic_ln : Scalar.Logarithmic ln := by
  have bounds : ∀ x : Float, 0 ≤ ln x ∧ (ln x).isFinite = true := by
    intro x
    unfold ln
    repeat' split
    all_goals decide +kernel
  exact ⟨fun _ _ => (bounds _).1, fun _ _ => (bounds _).2⟩

namespace Podium

open scoped Doubles

/-- Five actions, two of which have an infinite mean. -/
def infinite : Tree Nat Float := tree 5 [(1, 2), (1, -1 / 0), (1, 1 / 0), (1, 1 / 0), (1, -0.0)]

/-- Exploring and exploiting both go on with the first of these two. -/
theorem third_of_five : ∃ node children, infinite.nodes[0]? = some node ∧
    infinite.children 0 = .ok children ∧ 0 < node.visits ∧ node.visits < 2 ^ 64 ∧
      (∀ entry ∈ children, 0 < entry.2.visits) ∧
        (∀ entry ∈ children, Scalar.isUndefined entry.2.mean = false) ∧
          infinite.select 0 0 = .ok (some 3) ∧ infinite.favourite 0 = .ok (some 3) := by
  have told : (infinite.select 0 0).toOption = some (some 3) := by decide +kernel
  have all : (infinite.children 0).toOption.any (·.all fun entry =>
      decide (0 < entry.2.visits) && !Scalar.isUndefined entry.2.mean) = true := by
    decide +kernel
  rw [Option.any_eq_true] at all
  obtain ⟨children, looked, all⟩ := all
  have looked := Attempt.eq_ok_of_toOption looked
  have each := fun entry he => Bool.and_eq_true_iff.mp (List.all_eq_true.mp all entry he)
  have tried : ∀ entry ∈ children, 0 < entry.2.visits :=
    fun entry he => of_decide_eq_true (each entry he).1
  have numbers : ∀ entry ∈ children, Scalar.isUndefined entry.2.mean = false :=
    fun entry he => (Bool.not_eq_true' _).mp (each entry he).2
  have visits : infinite.root.visits = 5 := by decide +kernel
  have visited : 0 < infinite.root.visits := by omega
  have countable : infinite.root.visits < 2 ^ 64 := by omega
  have found := infinite.getElem?_root
  obtain ⟨best?, selected, favoured⟩ :=
    Tree.select_zero_eq_favourite Doubles.logarithmic_ln found looked visited countable tried
      numbers
  have chosen : infinite.select 0 0 = .ok best? := selected
  rw [chosen] at told
  obtain rfl := Option.some.inj told
  exact ⟨_, _, found, looked, visited, countable, tried, numbers, chosen, favoured⟩

/-- Noughts of either sign are equals, so the first of them stays. -/
example : ([[(3, -0.0), (2, 0)], [(3, 0), (2, -0.0)], [(3, -1), (2, -0.0)]].map fun learnt =>
    ((tree 5 learnt).select 0 0).toOption) = [some (some 1), some (some 1), some (some 2)] := by
  decide +kernel

end Podium

end HorizonUct
