import HorizonUct.Mdp.Table
import HorizonUct.Planner
import HorizonUct.Proofs.Attempt
import HorizonUct.Proofs.Tree.Foremost
import Mathlib.Data.List.DropRight
import Mathlib.Data.List.Nodup

/-!
# Means that are not numbers hide what came before them

Exploiting lets go of the mean it holds for any that is not at most that one. A
mean that is not a number is at most nothing, and nothing is at most it. So it
takes the place of whatever came before and gives way to whatever comes next,
and the run starts anew. What exploiting ends with is the first of the greatest
among the means behind the last one that is not a number, or that one itself if
none is behind it. If all means are numbers it is the first of the greatest.
-/

namespace HorizonUct

section Outlasts

variable {α β : Type} [Scalar α] {value : β → α} {entries : List β} {held winner : β}

/-- The entries whose values are numbers and are followed by numbers only. -/
def latest (value : β → α) (entries : List β) : List β :=
  entries.rtakeWhile fun entry => !Scalar.isUndefined (value entry)

/-- The entries up to the last one whose value is not a number. -/
def eclipsed (value : β → α) (entries : List β) : List β :=
  entries.rdropWhile fun entry => !Scalar.isUndefined (value entry)

/-- An entry that a run ends with if it lets go of what it holds for anything
that is not at most that. -/
inductive Outlasts (value : β → α) (entries : List β) (winner : β) : Prop where
  /-- It is the first of the greatest behind the last one that has no number. -/
  | ahead (foremost : Foremost value (latest value entries) winner)
  /-- It is the last one, and has no number. -/
  | last (undefined : Scalar.isUndefined (value winner) = true)
      (last : entries.getLast? = some winner)

/-- All entries are eclipsed, or among the latest. -/
theorem eclipsed_append_latest (value : β → α) (entries : List β) :
    eclipsed value entries ++ latest value entries = entries :=
  List.rdropWhile_append_rtakeWhile

/-- Behind an entry without a number a run starts anew. -/
theorem latest_of_undefined (undefined : Scalar.isUndefined (value winner) = true)
    (last : entries.getLast? = some winner) : latest value entries = [] := by
  refine List.rtakeWhile_eq_nil_iff.mpr fun some => ?_
  rw [List.getLast?_eq_some_getLast some, Option.some.injEq] at last
  rw [last, undefined]
  exact Bool.false_ne_true

/-- With one more entry the run goes over to it, or stays. -/
theorem Outlasts.onward (compares : Scalar.Comparable α) (outlasts : Outlasts value entries held)
    (next : β) : Outlasts value (entries ++ [next])
      (if !Scalar.le (value next) (value held) then next else held) := by
  cases number : Scalar.isUndefined (value next) with
  | true =>
    have above : Scalar.le (value next) (value held) = false := by
      refine Bool.eq_false_iff.mpr fun behind => ?_
      rw [(compares.numbers behind).1] at number
      cases number
    rw [above]
    exact .last number List.getLast?_concat
  | false =>
    have longer : latest value (entries ++ [next]) = latest value entries ++ [next] := by
      rw [latest, List.rtakeWhile_concat, number]
      rfl
    cases outlasts with
    | ahead foremost =>
      cases behind : Scalar.le (value next) (value held) with
      | true => exact .ahead (longer ▸ foremost.stays fun _ => behind)
      | false => exact .ahead (longer ▸ foremost.overtaken compares number behind)
    | last undefined last =>
      have above : Scalar.le (value next) (value held) = false := by
        refine Bool.eq_false_iff.mpr fun behind => ?_
        rw [(compares.numbers behind).2] at undefined
        cases undefined
      rw [latest_of_undefined undefined last, List.nil_append] at longer
      rw [above]
      refine .ahead ?_
      rw [longer]
      exact foremost_singleton number

/-- A run that goes over to whatever is not at most what it holds ends with the
entry that outlasts the others. -/
theorem outlasts_of_leader (compares : Scalar.Comparable α)
    (h : leader (fun next held => !Scalar.le (value next) (value held)) entries = some winner) :
    Outlasts value entries winner := by
  refine leader_induction (motive := Outlasts value) (fun first => ?_)
    (fun next outlasts => outlasts.onward compares next) h
  cases number : Scalar.isUndefined (value first) with
  | true => exact .last number rfl
  | false =>
    refine .ahead ?_
    have all : latest value [first] = [first] := by
      refine List.rtakeWhile_eq_self_iff.mpr fun entry he => ?_
      rw [List.mem_singleton.mp he, number]
      rfl
    rw [all]
    exact foremost_singleton number

/-- The entry that outlasts the others is one of them. -/
theorem Outlasts.mem (outlasts : Outlasts value entries winner) : winner ∈ entries := by
  cases outlasts with
  | ahead foremost =>
    rw [← eclipsed_append_latest value entries]
    exact List.mem_append_right _ foremost.mem
  | last _ last => exact List.mem_of_getLast? last

/-- Among numbers only, the first of the greatest outlasts the others. -/
theorem Outlasts.foremost (outlasts : Outlasts value entries winner)
    (numbers : ∀ entry ∈ entries, Scalar.isUndefined (value entry) = false) :
    Foremost value entries winner := by
  cases outlasts with
  | ahead foremost =>
    have all : latest value entries = entries :=
      List.rtakeWhile_eq_self_iff.mpr fun entry he => by rw [numbers entry he]; rfl
    exact all ▸ foremost
  | last undefined last =>
    rw [numbers winner (List.mem_of_getLast? last)] at undefined
    cases undefined

/-- Of different entries that do not all lack a number, the one that outlasts the
others is the first of the greatest exactly if all numbers that are eclipsed are
less. -/
theorem Outlasts.foremost_iff (compares : Scalar.Comparable α)
    (outlasts : Outlasts value entries winner) (distinct : entries.Nodup)
    (some : ∃ entry ∈ entries, Scalar.isUndefined (value entry) = false) :
    Foremost value entries winner ↔ ∀ entry ∈ eclipsed value entries,
      Scalar.isUndefined (value entry) = false → Scalar.lt (value entry) (value winner) = true := by
  have parts := eclipsed_append_latest value entries
  cases outlasts with
  | ahead foremost =>
    obtain ⟨before, after, split, less, most⟩ := foremost.split
    rw [split, ← List.append_assoc] at parts
    constructor
    · intro foremost' entry he number
      obtain ⟨before', after', split', less', -⟩ := foremost'.split
      -- an entry stands in one place only
      have once : winner ∉ before' ∧ winner ∉ after' := by
        rw [split', List.nodup_append, List.nodup_cons] at distinct
        exact ⟨fun early => distinct.2.2 winner early winner List.mem_cons_self rfl,
          distinct.2.1.1⟩
      obtain ⟨same, -⟩ :=
        (List.append_cons_inj_of_notMem once.1 once.2).mp (split'.symm.trans parts.symm)
      exact less' entry (same ▸ List.mem_append_left _ he) number
    · intro ahead
      refine ⟨foremost.number, _, after, parts.symm, fun entry he number => ?_, most⟩
      rcases List.mem_append.mp he with he | he
      · exact ahead entry he number
      · exact less entry he number
  | last undefined last =>
    rw [latest_of_undefined undefined last, List.append_nil] at parts
    constructor
    · intro foremost
      rw [foremost.number] at undefined
      cases undefined
    · intro ahead
      obtain ⟨entry, he, number⟩ := some
      have less := ahead entry (parts.symm ▸ he) number
      rw [(compares.lt_iff.mp less).2.1] at undefined
      cases undefined

end Outlasts

namespace Tree

variable {S α : Type} {tree : Tree S α} {id : Nat} {children : List (Nat × Node S α)}

/-- The children that have been visited, in order. -/
def visited (children : List (Nat × Node S α)) : List (Nat × Node S α) :=
  children.filter fun entry => decide (0 < entry.2.visits)

/-- A child has been visited if it has visits. -/
theorem mem_visited {entry : Nat × Node S α} :
    entry ∈ visited children ↔ entry ∈ children ∧ 0 < entry.2.visits := by
  rw [visited, List.mem_filter, decide_eq_true_iff]

/-- No child has been visited if none has visits. -/
theorem visited_eq_nil_iff : visited children = [] ↔ ∀ entry ∈ children, entry.2.visits = 0 := by
  rw [visited, List.filter_eq_nil_iff]
  refine forall₂_congr fun entry _ => ?_
  rw [decide_eq_true_iff]
  omega

variable [Scalar α]

/-- Exploiting runs through the visited children. -/
theorem favourite_of_looked (looked : tree.children id = .ok children) :
    tree.favourite id = .ok ((leader (fun next held => !Scalar.le next.2.mean held.2.mean)
      (visited children)).map Prod.fst) := by
  let candidate := fun entry : Nat × Node S α => entry.2.mean?.map fun mean => (entry.1, mean)
  have candidates : children.filterMap candidate =
      (visited children).map fun entry => (entry.1, entry.2.mean) := by
    rw [visited, ← List.filterMap_eq_filter, List.map_filterMap]
    refine List.filterMap_congr fun entry _ => ?_
    by_cases some : 0 < entry.2.visits <;> simp [candidate, Node.mean?, Option.guard, some]
  rw [favourite, looked]
  show Except.ok ((leader (fun next held => !Scalar.le next.2 held.2)
    (children.filterMap candidate)).map Prod.fst) = _
  rw [candidates, leader_map fun _ _ => rfl, Option.map_map]
  rfl

/-- Nothing is favoured exactly if no child has been visited. -/
theorem favourite_eq_none_iff (looked : tree.children id = .ok children) :
    tree.favourite id = .ok none ↔ ∀ entry ∈ children, entry.2.visits = 0 := by
  rw [favourite_of_looked looked, Except.ok.injEq, Option.map_eq_none_iff, leader_eq_none_iff,
    visited_eq_nil_iff]

/-- What is favoured outlasts the other visited children. -/
theorem outlasts_of_favourite (compares : Scalar.Comparable α) {best : Nat}
    (looked : tree.children id = .ok children) (favoured : tree.favourite id = .ok (some best)) :
    ∃ child, child.1 = best ∧ Outlasts (fun entry => entry.2.mean) (visited children) child := by
  rw [favourite_of_looked looked, Except.ok.injEq] at favoured
  obtain ⟨child, led, same⟩ := Option.map_eq_some_iff.mp favoured
  exact ⟨child, same, outlasts_of_leader compares led⟩

/-- If a child has been visited, one is favoured. -/
theorem exists_favourite (compares : Scalar.Comparable α) (looked : tree.children id = .ok children)
    {entry : Nat × Node S α} (he : entry ∈ children) (tried : 0 < entry.2.visits) :
    ∃ child, tree.favourite id = .ok (some child.1) ∧
      Outlasts (fun entry => entry.2.mean) (visited children) child := by
  obtain ⟨best?, favoured⟩ := favourite_of_children looked
  cases best? with
  | none =>
    have none := (favourite_eq_none_iff looked).mp favoured entry he
    omega
  | some best =>
    obtain ⟨child, rfl, outlasts⟩ := outlasts_of_favourite compares looked favoured
    exact ⟨child, favoured, outlasts⟩

/-- What there is to say about the child that exploiting goes on with. -/
structure Favours (children : List (Nat × Node S α)) (best : Nat × Node S α) : Prop where
  /-- It has been visited. -/
  member : best ∈ visited children
  /-- It is the first of those with the greatest means behind the last mean that is
  not a number, or it has that mean itself if there is none behind. -/
  outlasts : Outlasts (fun entry => entry.2.mean) (visited children) best
  /-- If all means are numbers, it is the first of those with the greatest. -/
  foremost : (∀ entry ∈ visited children, Scalar.isUndefined entry.2.mean = false) →
    Foremost (fun entry => entry.2.mean) (visited children) best
  /-- If only some means are, it is so exactly if all numbers up to the last mean that
  is none are less than its own. -/
  foremost_iff : (children.map Prod.fst).Nodup →
    (∃ entry ∈ visited children, Scalar.isUndefined entry.2.mean = false) →
      (Foremost (fun entry => entry.2.mean) (visited children) best ↔
        ∀ entry ∈ eclipsed (fun entry => entry.2.mean) (visited children),
          Scalar.isUndefined entry.2.mean = false →
            Scalar.lt entry.2.mean best.2.mean = true)

/-- A child that outlasts the others is all that. -/
theorem favours_of_outlasts (compares : Scalar.Comparable α) {best : Nat × Node S α}
    (outlasts : Outlasts (fun entry => entry.2.mean) (visited children) best) :
    Favours children best := by
  refine ⟨outlasts.mem, outlasts, outlasts.foremost, fun distinct some => ?_⟩
  exact outlasts.foremost_iff compares (distinct.of_map.filter _) some

/-- With doubles, whatever logarithm they come with, nothing is favoured exactly if
no child has been visited. Otherwise a visited child is favoured, and it is the
first of the best but for means that are not numbers. -/
theorem favours_of_favourite {S : Type} (ln : Float → Float) {tree : Tree S Float} {id : Nat}
    {children : List (Nat × Node S Float)} (looked : tree.children id = .ok children) :
    (@favourite S Float (.binary64 ln) tree id = .ok none ↔
        ∀ entry ∈ children, entry.2.visits = 0) ∧
      ((∃ entry ∈ children, 0 < entry.2.visits) → ∃ best : Nat × Node S Float,
        @favourite S Float (.binary64 ln) tree id = .ok (some best.1) ∧
          @Favours S Float (.binary64 ln) children best) := by
  let _ := Scalar.binary64 ln
  refine ⟨favourite_eq_none_iff looked, fun ⟨entry, he, tried⟩ => ?_⟩
  have compares := Scalar.comparable_binary64 ln
  obtain ⟨child, favoured, outlasts⟩ := exists_favourite compares looked he tried
  exact ⟨child, favoured, favours_of_outlasts compares outlasts⟩

end Tree

namespace Eclipse

open scoped Doubles

/-- Six actions, the third of which has not been tried, and the second of which has
no number for a mean. -/
def six : Tree Nat Float :=
  Podium.tree 7 [(1, 5), (1, Podium.nan), (0, 9), (1, 1), (3, 3), (1, 3)]

/-- The fifth of them is the first of the best behind that one. -/
theorem fifth_of_six : ∃ children best, six.children 0 = .ok children ∧
    (∃ entry ∈ children, 0 < entry.2.visits) ∧ six.favourite 0 = .ok (some best.1) ∧
      best.1 = 5 ∧ Tree.Favours children best := by
  have told : (six.favourite 0).toOption = some (some 5) := by decide +kernel
  have several : (six.children 0).toOption.any
      (·.any fun entry => decide (0 < entry.2.visits)) = true := by
    decide +kernel
  rw [Option.any_eq_true] at several
  obtain ⟨children, looked, several⟩ := several
  obtain ⟨entry, he, tried⟩ := List.any_eq_true.mp several
  have looked := Attempt.eq_ok_of_toOption looked
  have some : ∃ entry ∈ children, 0 < entry.2.visits := ⟨entry, he, of_decide_eq_true tried⟩
  obtain ⟨best, favoured, favours⟩ := (Tree.favours_of_favourite Doubles.ln looked).2 some
  rw [favoured] at told
  exact ⟨children, best, looked, some, favoured, Option.some.inj (Option.some.inj told), favours⟩

/-- What is not a number hides what is before it, and gives way to what is behind. -/
example : ([[(1, 5), (1, Podium.nan)], [(1, Podium.nan), (1, 5)],
    [(1, 5), (1, Podium.nan), (1, 1)], [(0, 5), (0, 1)]].map fun learnt =>
      ((Podium.tree 3 learnt).favourite 0).toOption) =
        [some (some 2), some (some 2), some (some 3), some none] := by
  decide +kernel

/-- One of three actions leads either up or down, and the others lead nowhere. -/
def table : Mdp Float where
  starts := [0]
  states := #[[⟨"a", [⟨1, 5⟩]⟩, ⟨"b", [⟨0.5, 1⟩, ⟨0.5, 2⟩]⟩, ⟨"c", [⟨1, 5⟩]⟩],
    [⟨"up", [⟨1, 3⟩]⟩], [⟨"down", [⟨1, 4⟩]⟩], [⟨"up", [⟨1, 5⟩]⟩], [⟨"down", [⟨1, 5⟩]⟩], []]

/-- Up twice earns more than a double can tell, and down twice costs as much. -/
def reward (_ : Nat) (label : String) : Except (Failure Float) Float :=
  .ok (if label = "a" then 5 else if label = "c" then 1 else if label = "up" then 1e308
    else if label = "down" then -1e308 else 0)

/-- Three actions ahead, four times, with a fixed bias. -/
def settings : Settings Float :=
  { Settings.standard with horizon := 3, budget := 4, bias := .fixed 1 }

/-- A planner for the process, whose draws lead up once and down once. -/
def planner : Planner (Cursor Float) (Replay Float) Nat Float :=
  ⟨.ofMdp table, reward, ⟨#[0.5, 0.25, 0.5, 0.5, 0.75, 0.5, 0.5, 0.5], 0, by decide⟩, settings,
    []⟩

/-- The settings hold and every reward is finite. The action that leads up and down
comes to have no number for a mean, and after it the worse one of the others is
favoured. -/
theorem worse_favoured : settings.check = .ok () ∧
    (∀ state label earned, reward state label = .ok earned → Scalar.isFinite earned = true) ∧
      ∃ findings planner' children best better,
        planner.searchWithin (fun _ => 0) 3 4 = (.ok findings, planner') ∧
          findings.tree.children 0 = .ok children ∧
            findings.tree.favourite 0 = .ok (some best.1) ∧ best ∈ Tree.visited children ∧
              better ∈ Tree.visited children ∧
                Scalar.lt best.2.mean better.2.mean = true := by
  refine ⟨Attempt.eq_ok_of_toOption (by decide +kernel), fun state label earned told => ?_, ?_⟩
  · obtain rfl := Except.ok.inj told
    repeat' split
    all_goals decide +kernel
  · have ended : (planner.searchWithin (fun _ => 0) 3 4).1.toOption.any (fun findings =>
        (findings.tree.children 0).toOption.any fun children =>
          (Tree.visited children).any fun best =>
            decide ((findings.tree.favourite 0).toOption = some (some best.1)) &&
              (Tree.visited children).any fun better =>
                Scalar.lt best.2.mean better.2.mean) = true := by
      decide +kernel
    rcases h : planner.searchWithin (fun _ => 0) 3 4 with ⟨_ | findings, planner'⟩
    · rw [h] at ended
      cases ended
    · rw [h] at ended
      rw [Except.toOption, Option.any_some, Option.any_eq_true] at ended
      obtain ⟨children, looked, ended⟩ := ended
      obtain ⟨best, member, ended⟩ := List.any_eq_true.mp ended
      obtain ⟨favoured, ended⟩ := Bool.and_eq_true_iff.mp ended
      obtain ⟨better, member', less⟩ := List.any_eq_true.mp ended
      exact ⟨findings, planner', children, best, better, rfl, Attempt.eq_ok_of_toOption looked,
        Attempt.eq_ok_of_toOption (of_decide_eq_true favoured), member, member', less⟩

end Eclipse

end HorizonUct
