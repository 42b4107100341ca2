import HorizonUct.Policy.Table
import HorizonUct.Proofs.Decimal.RoundTrip
import HorizonUct.Proofs.Policy.Breadth

/-!
# A transition table tells its chain

A table is read by lines and words: the counts from its first line, and from
each further line a transition. Where numbers are legible, which means that
their texts need no quotes and read back, the table of a chain reads as the
counts and the transitions of that chain. A row that is empty leaves no line,
but if each situation has a row, their number and the transitions tell all rows.
So chains with the same table are the same but for where they start and what
their situations stand for.
-/

namespace HorizonUct

/-- A word needs no quotes: no blank, no quote and no line break is in it. -/
def Bare (word : String) : Prop := ∀ c ∈ word.toList, c ∉ [' ', '"', '\n', '\r']

/-- A way to write numbers by which none is lost. -/
structure Legible {α : Type} (number : α → String) (read? : String → Option α) : Prop where
  /-- The texts need no quotes. -/
  bare : ∀ x, Bare (number x)
  /-- They read back. -/
  reads : ∀ x, read? (number x) = some x

/-- A word of digits needs no quotes. -/
theorem bare_repr (n : ℕ) : Bare (Nat.repr n) := by
  intro c h mark
  have digit := Decimal.digital_repr n c h
  have none : ∀ c ∈ [' ', '"', '\n', '\r'], c.isDigit = false := by simp
  rw [none c mark] at digit
  cases digit

/-- Doubles are written legibly. What is not a number is one double, whatever its
sign and its payload were. -/
theorem legible_plain : Legible Decimal.plain.render Decimal.read? where
  bare x c h mark := by
    have none : ∀ c ∈ [' ', '"', '\n', '\r'],
        ¬ (c.isDigit = true ∨ c ∈ ['-', '.'] ++ ['i', 'n', 'f', 'N', 'a']) := by simp
    exact none c mark (Decimal.isDigit_or_mem_of_render h)
  reads := Decimal.read?_render

/-- What a table says. -/
structure Listing (α : Type) where
  /-- How many situations there are. -/
  size : ℕ
  /-- How many transitions there are. -/
  count : ℕ
  /-- The transitions, each with its source, its target and its probability. -/
  transitions : List (ℕ × ℕ × α)

namespace Listing

/-- The lines of a text. Nothing is left behind the last line feed. -/
def lines (text : List Char) : List (List Char) :=
  let pieces := text.splitOn '\n'
  if pieces.getLast? = some [] then pieces.dropLast else pieces

/-- The words of each line of a text, with a blank between two of them. -/
def wordsByLine (text : String) : List (List String) :=
  (lines text.toList).map fun line => (line.splitOn ' ').map String.ofList

/-- A text of which each line is ended by a line feed splits into its lines. -/
theorem splitOn_ended {ended : List (List Char)} (clean : ∀ line ∈ ended, '\n' ∉ line) :
    (ended.flatMap (· ++ ['\n'])).splitOn '\n' = ended ++ [[]] := by
  induction ended with
  | nil => rfl
  | cons line rest ih =>
    have rest' := ih fun line h => clean line (List.mem_cons_of_mem _ h)
    rw [List.flatMap_cons, List.append_assoc, List.singleton_append,
      List.splitOn_append_cons_self_of_not_mem (clean line List.mem_cons_self), rest',
      List.cons_append]

/-- What is in a line is in one of its words, if it is not what stands between them. -/
theorem exists_mem_of_intercalate {between : List Char} {c : Char} (other : c ∉ between)
    {words : List (List Char)} (h : c ∈ between.intercalate words) : ∃ word ∈ words, c ∈ word := by
  induction words with
  | nil => cases h
  | cons word rest ih =>
    cases rest with
    | nil =>
      rw [List.intercalate_singleton] at h
      exact ⟨word, List.mem_cons_self, h⟩
    | cons next rest =>
      rw [List.intercalate_cons_cons, List.append_assoc] at h
      rcases List.mem_append.mp h with here | h
      · exact ⟨word, List.mem_cons_self, here⟩
      · obtain ⟨found, listed, inside⟩ := ih ((List.mem_append.mp h).resolve_left other)
        exact ⟨found, List.mem_cons_of_mem _ listed, inside⟩

/-- The characters of a line. -/
theorem toList_spaced (words : List String) :
    (" ".intercalate words).toList = [' '].intercalate (words.map String.toList) :=
  String.toList_intercalate

/-- A line of bare words has no line feed in it. -/
theorem not_mem_spaced {words : List String} (bare : ∀ word ∈ words, Bare word) :
    '\n' ∉ (" ".intercalate words).toList := by
  rw [toList_spaced]
  intro inside
  obtain ⟨text, among, inside⟩ := exists_mem_of_intercalate (by simp) inside
  obtain ⟨word, listed, rfl⟩ := List.mem_map.mp among
  exact bare word listed '\n' inside (by simp)

/-- It splits into its words. -/
theorem splitOn_spaced {words : List String} (some : words ≠ [])
    (bare : ∀ word ∈ words, Bare word) :
    ((" ".intercalate words).toList.splitOn ' ').map String.ofList = words := by
  have apart : ∀ text ∈ words.map String.toList, ' ' ∉ text := by
    intro text among inside
    obtain ⟨word, listed, rfl⟩ := List.mem_map.mp among
    exact bare word listed ' ' inside (by simp)
  rw [toList_spaced, List.splitOn_intercalate ' ' apart (mt List.map_eq_nil_iff.mp some),
    List.map_map]
  exact (List.map_congr_left fun word _ => String.ofList_toList).trans (List.map_id words)

/-- The words of bare lines are read back. -/
theorem wordsByLine_join {table : List (List String)}
    (bare : ∀ words ∈ table, words ≠ [] ∧ ∀ word ∈ words, Bare word) :
    wordsByLine (String.join (table.map fun words => " ".intercalate words ++ "\n")) = table := by
  have joined : (String.join (table.map fun words => " ".intercalate words ++ "\n")).toList =
      (table.map fun words => (" ".intercalate words).toList).flatMap (· ++ ['\n']) := by
    rw [String.toList_join, List.flatMap_map, List.flatMap_map]
    exact List.flatMap_congr fun words _ => String.toList_append
  have clean : ∀ line ∈ table.map fun words => (" ".intercalate words).toList, '\n' ∉ line := by
    intro line among
    obtain ⟨words, listed, rfl⟩ := List.mem_map.mp among
    exact not_mem_spaced (bare words listed).2
  rw [wordsByLine, joined, lines, splitOn_ended clean, List.getLast?_concat, if_pos rfl,
    List.dropLast_concat, List.map_map]
  exact (List.map_congr_left fun words listed =>
    splitOn_spaced (bare words listed).1 (bare words listed).2).trans (List.map_id table)

variable {α : Type}

/-- The counts in the first line. -/
def counts? : List String → Option (ℕ × ℕ)
  | [size, count] => do return (← size.toNat?, ← count.toNat?)
  | _ => none

/-- The transition in a further line. -/
def transition? (read? : String → Option α) : List String → Option (ℕ × ℕ × α)
  | [source, target, probability] => do
    return (← source.toNat?, ← target.toNat?, ← read? probability)
  | _ => none

/-- Read a table. -/
def ofText? (read? : String → Option α) (text : String) : Option (Listing α) :=
  match wordsByLine text with
  | [] => none
  | first :: further => do
    let (size, count) ← counts? first
    return ⟨size, count, ← further.mapM (transition? read?)⟩

end Listing

namespace Chain

variable {S S' α : Type} {number : α → String} {read? : String → Option α} {chain : Chain S α}
  {other : Chain S' α}

/-- Each line of a table has a word, and none needs quotes. -/
theorem bare_of_tableWords (legible : Legible number read?) {words : List String}
    (listed : words ∈ chain.tableWords number) : words ≠ [] ∧ ∀ word ∈ words, Bare word := by
  rcases List.mem_cons.mp listed with rfl | further
  · refine ⟨List.cons_ne_nil _ _, ?_⟩
    simp only [List.forall_mem_cons]
    exact ⟨bare_repr _, bare_repr _, fun _ h => nomatch h⟩
  · obtain ⟨⟨source, target, probability⟩, -, rfl⟩ := List.mem_map.mp further
    refine ⟨List.cons_ne_nil _ _, ?_⟩
    simp only [List.forall_mem_cons]
    exact ⟨bare_repr _, bare_repr _, legible.bare _, fun _ h => nomatch h⟩

/-- The lines and words of a table are those it was made of. -/
theorem wordsByLine_tableText (legible : Legible number read?) (chain : Chain S α) :
    Listing.wordsByLine (chain.tableText number) = chain.tableWords number :=
  Listing.wordsByLine_join fun _ listed => bare_of_tableWords legible listed

/-- A table reads as the counts and the transitions of its chain. -/
theorem ofText?_tableText (legible : Legible number read?) (chain : Chain S α) :
    Listing.ofText? read? (chain.tableText number) =
      some ⟨chain.size, chain.transitionCount, chain.transitions⟩ := by
  have counts : Listing.counts? [Nat.repr chain.size, Nat.repr chain.transitionCount] =
      some (chain.size, chain.transitionCount) := by
    rw [Listing.counts?, Nat.toNat?_repr, Nat.toNat?_repr]
    rfl
  have line (entry : ℕ × ℕ × α) : Listing.transition? read?
      [Nat.repr entry.1, Nat.repr entry.2.1, number entry.2.2] = some entry := by
    rw [Listing.transition?, Nat.toNat?_repr, Nat.toNat?_repr, legible.reads]
    rfl
  have further : (chain.transitions.map fun entry =>
      [Nat.repr entry.1, Nat.repr entry.2.1, number entry.2.2]).mapM
        (Listing.transition? read?) = some chain.transitions := by
    rw [List.mapM_map]
    exact (congrArg (List.mapM · chain.transitions) (funext line)).trans
      (List.mapM_pure.trans (congrArg some (List.map_id _)))
  rw [Listing.ofText?, wordsByLine_tableText legible, tableWords]
  dsimp only
  rw [counts]
  exact congrArg (Option.bind · fun entries =>
    some (Listing.mk chain.size chain.transitionCount entries)) further

/-- The row of a source among transitions. -/
def rowOf (source : ℕ) (entries : List (ℕ × ℕ × α)) : List (ℕ × α) :=
  entries.filterMap fun entry => if entry.1 = source then some entry.2 else none

/-- All transitions that are made of a row have its source. -/
theorem rowOf_map (source here : ℕ) (row : List (ℕ × α)) :
    rowOf source (row.map fun (target, probability) => (here, target, probability)) =
      if here = source then row else [] := by
  rw [rowOf, List.filterMap_map]
  by_cases same : here = source
  · rw [if_pos same]
    exact (List.filterMap_congr fun entry _ => if_pos same).trans List.filterMap_some
  · rw [if_neg same]
    exact (List.filterMap_congr fun entry _ => if_neg same).trans (List.filterMap_none _)

/-- A row is found among the transitions that are listed row by row. -/
theorem rowOf_zipIdx (source first : ℕ) (rows : List (List (ℕ × α))) :
    rowOf source ((rows.zipIdx first).flatMap fun (row, here) =>
      row.map fun (target, probability) => (here, target, probability)) =
        if first ≤ source then rows[source - first]?.getD [] else [] := by
  induction rows generalizing first with
  | nil => exact (ite_self []).symm
  | cons row rest ih =>
    have split (before after : List (ℕ × ℕ × α)) :
        rowOf source (before ++ after) = rowOf source before ++ rowOf source after :=
      List.filterMap_append
    rw [List.zipIdx_cons, List.flatMap_cons, split, rowOf_map, ih]
    rcases lt_trichotomy source first with later | rfl | earlier
    · rw [if_neg later.ne', if_neg (by omega), if_neg (by omega), List.nil_append]
    · rw [if_pos rfl, if_neg (by omega), if_pos le_rfl, Nat.sub_self, List.append_nil]
      rfl
    · have step : source - first = source - (first + 1) + 1 := by omega
      rw [if_neg earlier.ne, if_pos (by omega), if_pos earlier.le, step, List.nil_append,
        List.getElem?_cons_succ]

/-- The rows of a chain are told by their number and the transitions. -/
theorem rows_eq_iff (same : chain.rows.size = other.rows.size) :
    chain.rows = other.rows ↔ chain.transitions = other.transitions := by
  refine ⟨fun rows => by rw [transitions, transitions, rows], fun equal => ?_⟩
  refine Array.ext same fun source inside inside' => ?_
  have row (rows : Array (List (ℕ × α))) (inside : source < rows.size) :
      rowOf source (rows.toList.zipIdx.flatMap fun (row, here) =>
        row.map fun (target, probability) => (here, target, probability)) = rows[source] := by
    rw [rowOf_zipIdx, if_pos (Nat.zero_le _), Nat.sub_zero, Array.getElem?_toList,
      Array.getElem?_eq_getElem inside, Option.getD_some]
  calc chain.rows[source] = rowOf source chain.transitions := (row _ inside).symm
    _ = rowOf source other.transitions := congrArg (rowOf source) equal
    _ = other.rows[source] := row _ inside'

/-- What a text has to be to tell a chain: its first line has the counts, there is a line for
each transition behind it, and it reads as the counts and the transitions. -/
structure Tells (read? : String → Option α) (text : String) (chain : Chain S α) : Prop where
  /-- The first line, and the number of the others. -/
  lines : ∃ further, Listing.wordsByLine text =
    [Nat.repr chain.size, Nat.repr chain.transitionCount] :: further ∧
      further.length = chain.transitionCount
  /-- The text reads as this. -/
  reads : Listing.ofText? read? text = some ⟨chain.size, chain.transitionCount, chain.transitions⟩

/-- A legible table tells its chain. -/
theorem tells_tableText (legible : Legible number read?) (chain : Chain S α) :
    Tells read? (chain.tableText number) chain where
  lines := ⟨_, wordsByLine_tableText legible chain,
    (List.length_map _).trans (length_transitions chain)⟩
  reads := ofText?_tableText legible chain

/-- Legible tables are the same exactly if the numbers of situations and the transitions are. -/
theorem tableText_eq_iff (legible : Legible number read?) :
    chain.tableText number = other.tableText number ↔
      chain.size = other.size ∧ chain.transitions = other.transitions := by
  constructor
  · intro same
    have read := ofText?_tableText legible chain
    rw [same, ofText?_tableText legible other] at read
    obtain ⟨size, -, entries⟩ := Listing.mk.inj (Option.some.inj read)
    exact ⟨size.symm, entries.symm⟩
  · rintro ⟨size, entries⟩
    rw [tableText, tableText, tableWords, tableWords, ← length_transitions, ← length_transitions,
      size, entries]

/-- The table of a chain needs no quotes and tells the chain. Two chains have the same table
exactly if they have as many situations and the same transitions, which are the same rows if each
situation has one. -/
theorem tells_table (chain : Chain S Float) (whole : chain.rows.size = chain.size) :
    (∀ words ∈ chain.tableWords Decimal.plain.render, ∀ word ∈ words, Bare word) ∧
    Tells Decimal.read? chain.table chain ∧
    ∀ other : Chain S' Float, other.rows.size = other.size →
      (chain.table = other.table ↔
        chain.size = other.size ∧ chain.transitions = other.transitions) ∧
      (chain.table = other.table ↔ chain.size = other.size ∧ chain.rows = other.rows) := by
  refine ⟨fun _ listed => (bare_of_tableWords legible_plain listed).2,
    tells_tableText legible_plain chain, fun other whole' => ?_⟩
  have told : chain.table = other.table ↔
      chain.size = other.size ∧ chain.transitions = other.transitions :=
    tableText_eq_iff legible_plain
  refine ⟨told, told.trans (and_congr_right fun size => ?_)⟩
  exact (rows_eq_iff (whole.trans (size.trans whole'.symm))).symm

end Chain

namespace Atlas

/-- A chain with a row that is empty, and with a probability that is not a number. -/
def chain : Chain Nat Float where
  situations := #[⟨7, 0, some "part"⟩, ⟨8, 2, none⟩, ⟨9, 3, some "flow"⟩]
  rows := #[[(1, 0.25), (2, 0 / 0)], [], [(0, -0)]]
  start := 0

/-- One with the same rows that starts elsewhere, with other states. -/
def renamed : Chain String Float where
  situations := #[⟨"spring", 4, none⟩, ⟨"fall", 4, none⟩, ⟨"sea", 4, none⟩]
  rows := chain.rows
  start := 2

/-- One with the same transitions and a situation more. -/
def longer : Chain String Float where
  situations := renamed.situations.push ⟨"sky", 5, none⟩
  rows := renamed.rows.push []
  start := 2

/-- The first two have the same table, the third one has another. -/
theorem tells_chain : chain.rows.size = chain.size ∧ renamed.rows.size = renamed.size ∧
    chain.table = "3 3\n0 1 0.25\n0 2 NaN\n2 0 -0\n" ∧
    Chain.Tells Decimal.read? chain.table chain ∧
    chain.table = renamed.table ∧ chain.table ≠ longer.table := by
  obtain ⟨-, tells, same⟩ := Chain.tells_table chain rfl
  refine ⟨rfl, rfl, by decide +kernel, tells, (same renamed rfl).2.mpr ⟨rfl, rfl⟩, fun equal => ?_⟩
  exact absurd ((same longer rfl).1.mp equal).1 (by decide)

end Atlas

end HorizonUct
