import HorizonUct.Proofs.Binary64.Monotone
import HorizonUct.Proofs.Doubles
import HorizonUct.Proofs.Tree.Picks

/-!
# The first of the greatest

Exploring holds the best score so far. It lets go of it for any number that is
not at most that one, never for what is not a number, and stops at once at what
is beyond all numbers. What it ends with is the first of those whose scores are
the greatest numbers, or the first of all if no score is a number.

Of the comparison nothing is used but that it puts the numbers in order and is
false of anything else, and that what is beyond all finite numbers is what no
number exceeds.
-/

namespace HorizonUct

namespace Scalar

/-- Comparisons put the numbers of a carrier in order, and are false of anything else. -/
structure Comparable (α : Type) [Scalar α] : Prop extends Ordered α where
  /-- Only numbers are at most anything, or have anything that is at most them. -/
  numbers : ∀ {x y : α}, le x y = true → isUndefined x = false ∧ isUndefined y = false
  /-- A number is less than another one if that is not at most itself. -/
  lt_iff : ∀ {x y : α}, lt x y = true ↔
    isUndefined x = false ∧ isUndefined y = false ∧ le y x = false
  /-- What is beyond all finite numbers is what no number exceeds. -/
  unbounded_iff : ∀ {x : α}, isUnbounded x = true ↔
    isUndefined x = false ∧ ∀ y, isUndefined y = false → le y x = true

/-- Of two numbers the one that is not at most the other is greater. -/
theorem Comparable.le_of_not_le {α : Type} [Scalar α] (compares : Comparable α) {x y : α}
    (hx : isUndefined x = false) (hy : isUndefined y = false) (h : le x y = false) :
    le y x = true :=
  (compares.total hx hy).resolve_left (Bool.eq_false_iff.mp h)

section Binary64

open Binary64 (Undefined valueOf value)
open Float.Model (UnpackedFloat)

/-- A double is a number exactly if it is comparable with itself. -/
theorem isUndefined_binary64 (ln : Float → Float) (x : Float) :
    @isUndefined Float (.binary64 ln) x = false ↔ ¬ Undefined x := by
  let _ := Scalar.binary64 ln
  rw [isUndefined, Bool.not_eq_false']
  constructor
  · intro reflexive
    exact (Binary64.le_iff.mp (of_decide_eq_true reflexive)).1
  · intro number
    exact decide_eq_true (Binary64.le_iff.mpr ⟨number, number, le_rfl⟩)

/-- The double that is beyond all numbers is the infinite one. -/
theorem isUnbounded_binary64 (ln : Float → Float) (x : Float) :
    @isUnbounded Float (.binary64 ln) x = true ↔ ¬ Undefined x ∧ valueOf x = ⊤ := by
  have unfolded : @isUnbounded Float (.binary64 ln) x =
      (!x.toModel.unpack.isFinite && decide ((0 : Float) < x)) := rfl
  rw [unfolded, Bool.and_eq_true, Bool.not_eq_true', decide_eq_true_iff, Binary64.lt_iff,
    Binary64.valueOf_zero, and_iff_right Binary64.defined_zero, Undefined, valueOf]
  rcases x.toModel.unpack with (_ | _) | _ | _ | ⟨sign, m, e, pos⟩ <;>
    simp [UnpackedFloat.isFinite, value, Binary64.signed]

/-- The score of an untried action is beyond all numbers. -/
theorem isUnbounded_untried (ln : Float → Float) :
    @isUnbounded Float (.binary64 ln) Score.untried.toFloat = true := by
  show (!(1 / 0 : Float).isFinite && decide ((0 : Float) < 1 / 0)) = true
  decide +kernel

/-- Doubles are compared in that way. -/
theorem comparable_binary64 (ln : Float → Float) : @Comparable Float (.binary64 ln) := by
  let _ := Scalar.binary64 ln
  have number : ∀ {x : Float}, isUndefined x = false ↔ ¬ Undefined x :=
    fun {x} => isUndefined_binary64 ln x
  refine ⟨ordered_binary64 ln, fun h => ?_, fun {x y} => ?_, fun {x} => ?_⟩
  · obtain ⟨nx, ny, -⟩ := Binary64.le_iff.mp (of_decide_eq_true h)
    exact ⟨number.mpr nx, number.mpr ny⟩
  · have less : lt x y = true ↔ x < y := decide_eq_true_iff
    have most : le y x = false ↔ ¬ y ≤ x := decide_eq_false_iff_not
    rw [less, most, number, number, Binary64.lt_iff, Binary64.le_iff]
    refine and_congr_right fun nx => and_congr_right fun ny => ?_
    rw [← not_le]
    tauto
  · rw [isUnbounded_binary64, number]
    refine and_congr_right fun nx => ?_
    constructor
    · intro top y ny
      exact decide_eq_true (Binary64.le_iff.mpr ⟨number.mp ny, nx, top ▸ le_top⟩)
    · intro greatest
      obtain ⟨infinite, top⟩ := (isUnbounded_binary64 ln _).mp (isUnbounded_untried ln)
      have most := Binary64.le_iff.mp (of_decide_eq_true (greatest _ (number.mpr infinite)))
      exact top_le_iff.mp (top ▸ most.2.2)

end Binary64

end Scalar

/-- What is said of a run from left to right holds of its leader if it holds of
the first entry alone, and goes on to hold with each further one. -/
theorem leader_induction {β : Type} {beats : β → β → Bool} {motive : List β → β → Prop}
    (one : ∀ first, motive [first] first)
    (more : ∀ {entries : List β} {held : β} (next : β), motive entries held →
      motive (entries ++ [next]) (if beats next held then next else held))
    {entries : List β} {winner : β} (h : leader beats entries = some winner) :
    motive entries winner := by
  induction entries using List.reverseRecOn generalizing winner with
  | nil => cases h
  | append_singleton entries next ih =>
    cases entries with
    | nil =>
      obtain rfl := Option.some.inj h
      exact one next
    | cons first rest =>
      rw [List.cons_append, leader, List.foldl_append] at h
      obtain rfl := Option.some.inj h
      exact more next (ih rfl)

/-- Comparisons that agree on the entries of a run have the same leader. -/
theorem leader_congr {β : Type} {beats beats' : β → β → Bool} {entries : List β}
    (same : ∀ next ∈ entries, ∀ held ∈ entries, beats next held = beats' next held) :
    leader beats entries = leader beats' entries := by
  cases entries with
  | nil => rfl
  | cons first rest =>
    rw [leader, leader, Option.some.injEq]
    induction rest generalizing first with
    | nil => rfl
    | cons next rest ih =>
      rw [List.foldl_cons, List.foldl_cons,
        same next (List.mem_cons_of_mem _ List.mem_cons_self) first List.mem_cons_self]
      have among : ∀ entry ∈ (if beats' next first = true then next else first) :: rest,
          entry ∈ first :: next :: rest := by
        intro entry he
        rcases List.mem_cons.mp he with rfl | he
        · split <;> simp
        · exact List.mem_cons_of_mem _ (List.mem_cons_of_mem _ he)
      exact ih _ fun next hn held hh => same next (among next hn) held (among held hh)

section Foremost

variable {α β : Type} [Scalar α] {value : β → α} {entries : List β} {held next winner : β}

/-- The first of the entries whose values are the greatest numbers. -/
structure Foremost (value : β → α) (entries : List β) (winner : β) : Prop where
  /-- Its value is a number. -/
  number : Scalar.isUndefined (value winner) = false
  /-- Numbers before it are less, and numbers after it at most as great. -/
  split : ∃ before after, entries = before ++ winner :: after ∧
    (∀ entry ∈ before, Scalar.isUndefined (value entry) = false →
      Scalar.lt (value entry) (value winner) = true) ∧
    ∀ entry ∈ after, Scalar.isUndefined (value entry) = false →
      Scalar.le (value entry) (value winner) = true

/-- The foremost of some entries if a value is a number, and the first of them otherwise. -/
inductive Leads (value : β → α) (entries : List β) (winner : β) : Prop where
  /-- It is the first of the greatest. -/
  | foremost (foremost : Foremost value entries winner)
  /-- There is no number, and it is the first of all. -/
  | first (none : ∀ entry ∈ entries, Scalar.isUndefined (value entry) = true)
      (first : entries.head? = some winner)

/-- The foremost entry is one of them. -/
theorem Foremost.mem (foremost : Foremost value entries winner) : winner ∈ entries := by
  obtain ⟨before, after, rfl, -, -⟩ := foremost.split
  exact List.mem_append_right _ List.mem_cons_self

/-- A number is the foremost entry if it is the only one. -/
theorem foremost_singleton (number : Scalar.isUndefined (value winner) = false) :
    Foremost value [winner] winner :=
  ⟨number, [], [], rfl, nofun, nofun⟩

/-- No number among the values is greater than that of the foremost entry. -/
theorem Foremost.le (compares : Scalar.Comparable α) (foremost : Foremost value entries winner) :
    ∀ entry ∈ entries, Scalar.isUndefined (value entry) = false →
      Scalar.le (value entry) (value winner) = true := by
  obtain ⟨before, after, rfl, less, most⟩ := foremost.split
  intro entry he number
  rcases List.mem_append.mp he with he | he
  · obtain ⟨-, -, above⟩ := compares.lt_iff.mp (less entry he number)
    exact compares.le_of_not_le foremost.number number above
  · rcases List.mem_cons.mp he with rfl | he
    · exact (compares.total number number).elim id id
    · exact most entry he number

/-- A number that is not at most the greatest one so far is the greatest one with it. -/
theorem Foremost.overtaken (compares : Scalar.Comparable α)
    (foremost : Foremost value entries held) (number : Scalar.isUndefined (value next) = false)
    (above : Scalar.le (value next) (value held) = false) :
    Foremost value (entries ++ [next]) next := by
  refine ⟨number, entries, [], rfl, fun entry he number' => ?_, nofun⟩
  refine compares.lt_iff.mpr ⟨number', number, Bool.eq_false_iff.mpr fun behind => ?_⟩
  have further := compares.trans behind (foremost.le compares entry he number')
  rw [above] at further
  cases further

/-- What is no number, or is at most the greatest one so far, leaves it in place. -/
theorem Foremost.stays (foremost : Foremost value entries held)
    (behind : Scalar.isUndefined (value next) = false →
      Scalar.le (value next) (value held) = true) : Foremost value (entries ++ [next]) held := by
  obtain ⟨before, after, rfl, less, most⟩ := foremost.split
  refine ⟨foremost.number, before, after ++ [next], ?_, less, fun entry he number => ?_⟩
  · rw [List.append_assoc, List.cons_append]
  · rcases List.mem_append.mp he with he | he
    · exact most entry he number
    · rw [List.mem_singleton.mp he] at number ⊢
      exact behind number

/-- There is one foremost entry at most. -/
theorem Foremost.unique (compares : Scalar.Comparable α) {winner' : β}
    (foremost : Foremost value entries winner) (foremost' : Foremost value entries winner') :
    winner = winner' := by
  -- a foremost entry is not among those before another one
  have apart : ∀ {first second : β} {before : List β}, Foremost value entries first →
      second ∈ entries → Scalar.isUndefined (value second) = false → first ∈ before →
      (∀ entry ∈ before, Scalar.isUndefined (value entry) = false →
        Scalar.lt (value entry) (value second) = true) → False := by
    intro first second before ahead mem number early less
    obtain ⟨-, -, above⟩ := compares.lt_iff.mp (less first early ahead.number)
    rw [ahead.le compares second mem number] at above
    cases above
  obtain ⟨before, after, split, less, -⟩ := foremost.split
  obtain ⟨before', after', split', less', -⟩ := foremost'.split
  rw [split, List.append_eq_append_iff] at split'
  rcases split' with ⟨between, early, rest⟩ | ⟨between, early, rest⟩
  · cases between with
    | nil => exact (List.cons.inj rest).1
    | cons entry between =>
      obtain rfl := (List.cons.inj rest).1
      exact (apart foremost foremost'.mem foremost'.number
        (early ▸ List.mem_append_right _ List.mem_cons_self) less').elim
  · cases between with
    | nil => exact (List.cons.inj rest).1.symm
    | cons entry between =>
      obtain rfl := (List.cons.inj rest).1
      exact (apart foremost' foremost.mem foremost.number
        (early ▸ List.mem_append_right _ List.mem_cons_self) less).elim

/-- With one more entry the first one of the greatest goes on to lead. -/
theorem Leads.onward (compares : Scalar.Comparable α) (leads : Leads value entries held)
    (next : β) :
    Leads value (entries ++ [next])
      (if !Scalar.le (value next) (value held) && !Scalar.isUndefined (value next) then next
        else held) := by
  cases number : Scalar.isUndefined (value next) with
  | true =>
    rw [Bool.not_true, Bool.and_false, if_neg Bool.false_ne_true]
    cases leads with
    | foremost foremost => exact .foremost (foremost.stays fun h => by rw [number] at h; cases h)
    | first none first =>
      refine .first (fun entry he => ?_) (by rw [List.head?_append, first, Option.some_or])
      rcases List.mem_append.mp he with he | he
      · exact none entry he
      · rw [List.mem_singleton.mp he]
        exact number
  | false =>
    rw [Bool.not_false, Bool.and_true]
    cases leads with
    | foremost foremost =>
      cases behind : Scalar.le (value next) (value held) with
      | true => exact .foremost (foremost.stays fun _ => behind)
      | false => exact .foremost (foremost.overtaken compares number behind)
    | first none first =>
      -- nothing is at most what is no number
      have above : Scalar.le (value next) (value held) = false := by
        rw [Bool.eq_false_iff]
        intro behind
        have held := (compares.numbers behind).2
        rw [none _ (List.mem_of_head? first)] at held
        cases held
      rw [above]
      refine .foremost ⟨number, entries, [], rfl, fun entry he number' => ?_, nofun⟩
      rw [none entry he] at number'
      cases number'

/-- A run that goes over to each number that is not at most the one it holds ends
with the first of the greatest. -/
theorem leads_of_leader (compares : Scalar.Comparable α)
    (h : leader (fun next held => !Scalar.le (value next) (value held) &&
      !Scalar.isUndefined (value next)) entries = some winner) : Leads value entries winner := by
  refine leader_induction (motive := Leads value) (fun first => ?_)
    (fun next leads => leads.onward compares next) h
  cases number : Scalar.isUndefined (value first) with
  | true => exact .first (fun entry he => by rw [List.mem_singleton.mp he]; exact number) rfl
  | false => exact .foremost (foremost_singleton number)

/-- The first entry that is beyond all finite numbers is the first of the greatest. -/
theorem leads_of_find? (compares : Scalar.Comparable α)
    (h : entries.find? (fun entry => Scalar.isUnbounded (value entry)) = some winner) :
    Leads value entries winner := by
  obtain ⟨unbounded, before, after, split, bounded⟩ := List.find?_eq_some_iff_append.mp h
  obtain ⟨number, greatest⟩ := compares.unbounded_iff.mp unbounded
  refine .foremost ⟨number, before, after, split, fun entry he number' => ?_,
    fun entry _ => greatest (value entry)⟩
  refine compares.lt_iff.mpr ⟨number', number, Bool.eq_false_iff.mpr fun above => ?_⟩
  have beyond := compares.unbounded_iff.mpr
    ⟨number', fun other numberOther => compares.trans (greatest other numberOther) above⟩
  have finite := bounded entry he
  rw [beyond] at finite
  cases finite

end Foremost

namespace Tree

variable {S α : Type} [Scalar α] {tree : Tree S α} {id : Nat} {node : Node S α}
variable {children : List (Nat × Node S α)}

/-- Where exploring goes on, told in one line. -/
theorem select_of_children (found : tree.nodes[id]? = some node)
    (looked : tree.children id = .ok children) (bias : α) :
    tree.select id bias = .ok (((children.find? fun entry =>
      (entry.2.score node.visits bias).isUrgent).or
        (leader (fun next held => (next.2.score node.visits bias).beats
          (held.2.score node.visits bias)) children)).map Prod.fst) := by
  let scored := fun entry : Nat × Node S α => (entry.1, entry.2.score node.visits bias)
  rw [select, node_eq_ok_iff.mpr found, looked]
  show Except.ok ((((children.map scored).find? fun entry => entry.2.isUrgent).or
    (leader (fun next held => next.2.beats held.2) (children.map scored))).map Prod.fst) = _
  rw [List.find?_map, leader_map fun _ _ => rfl, ← Option.map_or, Option.map_map]
  rfl

/-- Exploring goes on with the first of the children whose scores are the greatest
numbers, the score of an untried one being read as beyond all finite numbers; if
no score is a number, with the first child. -/
theorem leads_of_select (compares : Scalar.Comparable α) {read : Score α → α}
    (value : ∀ score, read (.value score) = score)
    (untried : Scalar.isUnbounded (read .untried) = true) (found : tree.nodes[id]? = some node)
    (looked : tree.children id = .ok children) (some : children ≠ []) (bias : α) :
    ∃ child, tree.select id bias = .ok (.some child.1) ∧
      Leads (fun entry => read (entry.2.score node.visits bias)) children child := by
  have urgent : ∀ score : Score α, score.isUrgent = Scalar.isUnbounded (read score) := by
    rintro (_ | score)
    · exact untried.symm
    · rw [value, Score.isUrgent]
  rw [select_of_children found looked]
  cases first : children.find? fun entry => (entry.2.score node.visits bias).isUrgent with
  | some child =>
    refine ⟨child, rfl, leads_of_find? compares ?_⟩
    rw [← first]
    exact congrArg (List.find? · children) (funext fun entry => (urgent _).symm)
  | none =>
    rw [Option.none_or]
    -- without an urgent score all of them are values, which beat each other by comparison
    have calm : ∀ entry ∈ children, ∃ score, entry.2.score node.visits bias = .value score := by
      intro entry he
      cases told : entry.2.score node.visits bias with
      | untried =>
        have never := List.find?_eq_none.mp first entry he
        rw [told] at never
        exact (never rfl).elim
      | value score => exact ⟨score, rfl⟩
    have same : leader (fun next held => (next.2.score node.visits bias).beats
        (held.2.score node.visits bias)) children = leader (fun next held =>
          !Scalar.le (read (next.2.score node.visits bias))
            (read (held.2.score node.visits bias)) &&
              !Scalar.isUndefined (read (next.2.score node.visits bias))) children := by
      refine leader_congr fun next hn held hh => ?_
      obtain ⟨score, told⟩ := calm next hn
      obtain ⟨score', told'⟩ := calm held hh
      rw [told, told', value, value, Score.beats]
    rw [same]
    cases led : leader _ children with
    | none => exact (some (leader_eq_none_iff.mp led)).elim
    | some child => exact ⟨child, rfl, leads_of_leader compares led⟩

/-- With doubles, whatever logarithm they come with, nothing is selected exactly
where there are no children. Otherwise it is the first of the children whose
scores are the greatest numbers, or the first child if no score is a number; the
score of a child that has not been visited is infinite. -/
theorem foremost_of_select {S : Type} (ln : Float → Float) {tree : Tree S Float} {id : Nat}
    {node : Node S Float} (found : tree.nodes[id]? = some node) (bias : Float) :
    (@select S Float (.binary64 ln) tree id bias = .ok none ↔ node.children = []) ∧
      ∀ children, tree.children id = .ok children → children ≠ [] →
        ∃ child, @select S Float (.binary64 ln) tree id bias = .ok (some child.1) ∧
          @Leads Float (Nat × Node S Float) (.binary64 ln)
            (fun entry => (@Node.score S Float (.binary64 ln) entry.2 node.visits bias).toFloat)
            children child := by
  let _ := Scalar.binary64 ln
  refine ⟨⟨fun none => select_eq_none none found, fun bare => ?_⟩, fun children looked some => ?_⟩
  · have looked : tree.children id = .ok [] := by
      rw [Tree.children, node_eq_ok_iff.mpr found]
      exact congrArg (List.mapM _) bare
    rw [select_of_children found looked]
    rfl
  · exact leads_of_select (Scalar.comparable_binary64 ln) (fun _ => rfl)
      (Scalar.isUnbounded_untried ln) found looked some bias

end Tree

namespace Podium

open scoped Doubles

/-- A state with so many visits, and below it actions with so many visits and such means. -/
def tree (visits : Nat) (learnt : List (Nat × Float)) : Tree Nat Float :=
  ((Tree.ofRoot 0).adopt 0 (learnt.map fun (visits, mean) =>
    { Node.chance 0 "go" with visits := visits, mean := mean })).modify 0 fun node =>
      { node with visits := visits }

/-- What is not a number. -/
def nan : Float := 0 / 0

/-- Five actions, the first and the third of which have no number for a mean. -/
def five : Tree Nat Float := tree 5 [(1, nan), (1, 1), (1, nan), (1, 2), (1, 2)]

/-- The fourth of them is the first of the two best. -/
theorem fourth_of_five : ∃ node children child, five.nodes[0]? = some node ∧
    five.children 0 = .ok children ∧ children ≠ [] ∧ child.1 = 4 ∧
      Leads (fun entry => (entry.2.score node.visits 1).toFloat) children child := by
  have told : (five.select 0 1).toOption = some (some 4) := by decide +kernel
  have several : (five.children 0).toOption.any (!·.isEmpty) = true := by decide +kernel
  rcases looked : five.children 0 with _ | children
  · rw [looked] at several
    cases several
  · rw [looked] at several
    have some : children ≠ [] := by simpa [Except.toOption] using several
    have found := five.getElem?_root
    obtain ⟨child, picked, leads⟩ :=
      (Tree.foremost_of_select Doubles.ln found 1).2 children looked some
    rw [picked] at told
    exact ⟨_, children, child, found, rfl, some, Option.some.inj (Option.some.inj told), leads⟩

/-- If no score is a number, the first child is selected; an infinite one is
selected before all others, and one that has not been visited counts as such. -/
example : [([(1, nan), (1, nan)], 1), ([(1, 1), (1, 1 / 0), (0, 0)], 1), ([(1, nan), (1, 3)], nan),
    ([(1, nan), (0, 0), (1, 1 / 0)], 1)].map (fun (learnt, bias) =>
      ((tree 5 learnt).select 0 bias).toOption) =
        [some (some 1), some (some 2), some (some 1), some (some 2)] := by
  decide +kernel

end Podium

end HorizonUct
