import Mathlib.Data.List.Forall2

/-!
# Attempts in a row

A row of attempts succeeds exactly if each of them does, in order. Nothing
here is about searching.
-/

namespace HorizonUct.Attempt

variable {ε β γ : Type}

/-- Two attempts, each of which leaves something behind, end alike: both yield
results, or both fail. -/
inductive Coupled {P Q : Type} (alike : ε → ε → Prop) (broken : P → Q → Prop)
    (done : β → γ → P → Q → Prop) : Except ε β × P → Except ε γ × Q → Prop where
  /-- Both yield results. -/
  | ok {first : β} {second : γ} {left : P} {right : Q} (results : done first second left right) :
      Coupled alike broken done (.ok first, left) (.ok second, right)
  /-- Both fail. -/
  | error {first second : ε} {left : P} {right : Q} (failures : alike first second)
      (leftovers : broken left right) :
      Coupled alike broken done (.error first, left) (.error second, right)

/-- An attempt that leaves a result has succeeded with it. -/
theorem eq_ok_of_toOption {attempt : Except ε β} {result : β}
    (h : attempt.toOption = some result) : attempt = .ok result := by
  cases attempt with
  | error failure => cases h
  | ok value => exact congrArg Except.ok (Option.some.inj h)

/-- Two attempts in a row succeed exactly if both do. -/
theorem bind_eq_ok_iff {first : Except ε β} {next : β → Except ε γ} {result : γ} :
    (first >>= next) = .ok result ↔ ∃ value, first = .ok value ∧ next value = .ok result := by
  cases first with
  | error failure =>
    exact ⟨nofun, fun ⟨value, h, _⟩ => nomatch h⟩
  | ok value =>
    refine ⟨fun h => ⟨value, rfl, h⟩, ?_⟩
    rintro ⟨value', h, hn⟩
    cases h
    exact hn

/-- Two attempts in a row succeed if the first does and the second does
whatever the first yields. -/
theorem exists_bind_ok {first : Except ε β} {next : β → Except ε γ}
    (hf : ∃ value, first = .ok value) (hn : ∀ value, ∃ result, next value = .ok result) :
    ∃ result, (first >>= next) = .ok result := by
  obtain ⟨value, hv⟩ := hf
  obtain ⟨result, hr⟩ := hn value
  exact ⟨result, bind_eq_ok_iff.mpr ⟨value, hv, hr⟩⟩

/-- A row of attempts over a list succeeds exactly if each does, and then
yields their results in order. -/
theorem mapM_eq_ok_iff {attempt : β → Except ε γ} {inputs : List β} {results : List γ} :
    inputs.mapM attempt = .ok results ↔
      List.Forall₂ (fun input result => attempt input = .ok result) inputs results := by
  induction inputs generalizing results with
  | nil =>
    rw [List.mapM_nil, List.forall₂_nil_left_iff]
    exact ⟨fun h => (Except.ok.inj h).symm, fun h => by rw [h]; rfl⟩
  | cons input rest ih =>
    rw [List.mapM_cons, List.forall₂_cons_left_iff, bind_eq_ok_iff]
    constructor
    · rintro ⟨value, hv, h⟩
      obtain ⟨values, hs, h⟩ := bind_eq_ok_iff.mp h
      exact ⟨value, values, hv, ih.mp hs, (Except.ok.inj h).symm⟩
    · rintro ⟨value, values, hv, hs, rfl⟩
      exact ⟨value, hv, bind_eq_ok_iff.mpr ⟨values, ih.mpr hs, rfl⟩⟩

/-- A row of attempts succeeds if each of them does. -/
theorem mapM_ok {attempt : β → Except ε γ} {inputs : List β}
    (h : ∀ input ∈ inputs, ∃ result, attempt input = .ok result) :
    ∃ results, inputs.mapM attempt = .ok results := by
  induction inputs with
  | nil => exact ⟨[], rfl⟩
  | cons input rest ih =>
    obtain ⟨result, hr⟩ := h input List.mem_cons_self
    obtain ⟨results, hrs⟩ := ih fun other ho => h other (List.mem_cons_of_mem _ ho)
    refine ⟨result :: results, ?_⟩
    rw [List.mapM_cons, bind_eq_ok_iff]
    exact ⟨result, hr, bind_eq_ok_iff.mpr ⟨results, hrs, rfl⟩⟩

/-- Attempts that agree on each entry of a list agree in a row. -/
theorem mapM_congr {first second : β → Except ε γ} {inputs : List β}
    (h : ∀ input ∈ inputs, first input = second input) :
    inputs.mapM first = inputs.mapM second := by
  induction inputs with
  | nil => rfl
  | cons input rest ih =>
    rw [List.mapM_cons, List.mapM_cons, h input List.mem_cons_self,
      ih fun other ho => h other (List.mem_cons_of_mem _ ho)]

/-- What is done to each result of a row can be done to all of them in the end. -/
theorem mapM_map_results {δ : Type} (attempt : β → Except ε γ) (finish : γ → δ)
    (inputs : List β) : (inputs.mapM fun input => (attempt input).map finish) =
      (inputs.mapM attempt).map (List.map finish) := by
  induction inputs with
  | nil => rfl
  | cons input rest ih =>
    rw [List.mapM_cons, List.mapM_cons, ih]
    cases attempt input with
    | error failure => rfl
    | ok value => cases rest.mapM attempt <;> rfl

/-- A fold of attempts whose held values are translated as it goes comes to the translation. -/
theorem foldlM_map {δ : Type} {attempt : γ → β → Except ε γ} {attempt' : δ → β → Except ε δ}
    {translate : γ → δ} {inputs : List β}
    (step : ∀ held, ∀ input ∈ inputs,
      attempt' (translate held) input = (attempt held input).map translate) (first : γ) :
    inputs.foldlM attempt' (translate first) = (inputs.foldlM attempt first).map translate := by
  induction inputs generalizing first with
  | nil => rfl
  | cons input rest ih =>
    rw [List.foldlM_cons, List.foldlM_cons, step first input List.mem_cons_self]
    cases attempt first input with
    | error failure => rfl
    | ok next => exact ih (fun held other h => step held other (List.mem_cons_of_mem _ h)) next

/-- Folds of attempts that agree on each entry agree. -/
theorem foldlM_congr {first second : γ → β → Except ε γ} {inputs : List β}
    (h : ∀ held, ∀ input ∈ inputs, first held input = second held input) (start : γ) :
    inputs.foldlM first start = inputs.foldlM second start := by
  induction inputs generalizing start with
  | nil => rfl
  | cons input rest ih =>
    rw [List.foldlM_cons, List.foldlM_cons, h start input List.mem_cons_self]
    exact congrArg _ (funext (ih fun held other ho => h held other (List.mem_cons_of_mem _ ho)))

/-- A row of attempts, some of which yield nothing, succeeds if each of them does. -/
theorem filterMapM_ok {attempt : β → Except ε (Option γ)} {inputs : List β}
    (h : ∀ input ∈ inputs, ∃ result, attempt input = .ok result) :
    ∃ results, inputs.filterMapM attempt = .ok results := by
  induction inputs with
  | nil => exact ⟨[], rfl⟩
  | cons input rest ih =>
    obtain ⟨result, hr⟩ := h input List.mem_cons_self
    obtain ⟨results, hrs⟩ := ih fun other ho => h other (List.mem_cons_of_mem _ ho)
    rw [List.filterMapM_cons, hr, hrs]
    cases result with
    | none => exact ⟨results, rfl⟩
    | some value => exact ⟨value :: results, rfl⟩

/-- A row of checks is one check after the other. -/
theorem forM_cons (check : β → Except ε Unit) (input : β) (rest : List β) :
    (input :: rest).forM check = (check input >>= fun _ => rest.forM check) := rfl

/-- A row of checks passes exactly if each of them does. -/
theorem forM_eq_ok_iff {check : β → Except ε Unit} {inputs : List β} :
    inputs.forM check = .ok () ↔ ∀ input ∈ inputs, check input = .ok () := by
  induction inputs with
  | nil => exact ⟨fun _ => nofun, fun _ => rfl⟩
  | cons input rest ih =>
    rw [forM_cons, bind_eq_ok_iff, List.forall_mem_cons, ← ih]
    exact ⟨fun ⟨_, first, rest⟩ => ⟨first, rest⟩, fun ⟨first, rest⟩ => ⟨(), first, rest⟩⟩

/-- It fails exactly at the first check that does. -/
theorem forM_eq_error_iff {check : β → Except ε Unit} {inputs : List β} {failure : ε} :
    inputs.forM check = .error failure ↔ ∃ (place : Nat) (input : β), inputs[place]? = some input ∧
      (∀ earlier < place, ∀ other : β, inputs[earlier]? = some other → check other = .ok ()) ∧
        check input = .error failure := by
  induction inputs with
  | nil => exact ⟨nofun, fun ⟨_, _, listed, _⟩ => nomatch listed⟩
  | cons input rest ih =>
    rw [forM_cons]
    cases checked : check input with
    | error failure' =>
      constructor
      · intro h
        cases h
        exact ⟨0, input, rfl, fun earlier h => absurd h (Nat.not_lt_zero earlier), checked⟩
      · rintro ⟨_ | place, other, listed, before, broken⟩
        · cases listed
          exact checked.symm.trans broken
        · have passed := before 0 (Nat.succ_pos place) input rfl
          rw [checked] at passed
          cases passed
    | ok =>
      show rest.forM check = .error failure ↔ _
      rw [ih]
      constructor
      · rintro ⟨place, other, listed, before, broken⟩
        refine ⟨place + 1, other, listed, fun earlier h another there => ?_, broken⟩
        cases earlier with
        | zero =>
          cases there
          exact checked
        | succ earlier => exact before earlier (Nat.lt_of_succ_lt_succ h) another there
      · rintro ⟨_ | place, other, listed, before, broken⟩
        · cases listed
          rw [checked] at broken
          cases broken
        · exact ⟨place, other, listed, fun earlier h another there =>
            before (earlier + 1) (Nat.succ_lt_succ h) another there, broken⟩

/-- A fold of attempts succeeds if each succeeds on what the one before left,
as far as an invariant says. -/
theorem foldlM_ok {attempt : γ → β → Except ε γ} {holds : γ → Prop} {inputs : List β}
    (step : ∀ (held : γ), ∀ input ∈ inputs, holds held →
      ∃ next, attempt held input = .ok next ∧ holds next) {first : γ} (h : holds first) :
    ∃ last, inputs.foldlM attempt first = .ok last ∧ holds last := by
  induction inputs generalizing first with
  | nil => exact ⟨first, rfl, h⟩
  | cons input rest ih =>
    obtain ⟨next, hn, holdsNext⟩ := step first input List.mem_cons_self h
    obtain ⟨last, hl, holdsLast⟩ :=
      ih (fun held other ho => step held other (List.mem_cons_of_mem _ ho)) holdsNext
    refine ⟨last, ?_, holdsLast⟩
    rw [List.foldlM_cons, hn]
    exact hl

/-- A fold of attempts fails exactly if it comes to an entry at which an attempt does. -/
theorem foldlM_eq_error_iff {attempt : γ → β → Except ε γ} {inputs : List β} {first : γ}
    {failure : ε} : inputs.foldlM attempt first = .error failure ↔
      ∃ before input after held, inputs = before ++ input :: after ∧
        before.foldlM attempt first = .ok held ∧ attempt held input = .error failure := by
  constructor
  · intro h
    induction inputs generalizing first with
    | nil => cases h
    | cons input rest ih =>
      rw [List.foldlM_cons] at h
      cases hn : attempt first input with
      | error failure' =>
        rw [hn] at h
        cases h
        exact ⟨[], input, rest, first, rfl, rfl, hn⟩
      | ok next =>
        rw [hn] at h
        obtain ⟨before, other, after, held, rfl, done, broken⟩ := ih h
        refine ⟨input :: before, other, after, held, rfl, ?_, broken⟩
        rw [List.foldlM_cons, hn]
        exact done
  · rintro ⟨before, input, after, held, rfl, done, broken⟩
    rw [List.foldlM_append, done]
    show (attempt held input >>= _) = _
    rw [broken]
    rfl

/-- Attempts that succeed at the places of a list yield a result for each entry. -/
theorem mapM_range_eq_ok {entries : List β} {attempt : Nat → Except ε γ}
    {give : β → Nat → γ}
    (h : ∀ {place : Nat} {entry : β}, entries[place]? = some entry →
      attempt place = .ok (give entry place)) :
    (List.range entries.length).mapM attempt =
      .ok (entries.zipIdx.map fun entry => give entry.1 entry.2) := by
  rw [mapM_eq_ok_iff, List.forall₂_iff_get]
  refine ⟨by simp only [List.length_range, List.length_map, List.length_zipIdx], ?_⟩
  intro place hr _
  rw [List.length_range] at hr
  simp only [List.get_eq_getElem, List.getElem_range, List.getElem_map, List.getElem_zipIdx,
    Nat.zero_add]
  exact h (List.getElem?_eq_getElem hr)

/-- Of two lists that are related place by place, an entry of the second is
related to one of the first. -/
theorem exists_of_mem_right {relation : β → γ → Prop} {inputs : List β} {results : List γ}
    (h : List.Forall₂ relation inputs results) {result : γ} (hr : result ∈ results) :
    ∃ input ∈ inputs, relation input result := by
  induction h with
  | nil => cases hr
  | cons head _ ih =>
    rcases List.mem_cons.mp hr with rfl | hr
    · exact ⟨_, List.mem_cons_self, head⟩
    · obtain ⟨input, hi, h⟩ := ih hr
      exact ⟨input, List.mem_cons_of_mem _ hi, h⟩

/-- Of two lists that are related place by place, an entry of the first is
related to one of the second. -/
theorem exists_of_mem_left {relation : β → γ → Prop} {inputs : List β} {results : List γ}
    (h : List.Forall₂ relation inputs results) {input : β} (hi : input ∈ inputs) :
    ∃ result ∈ results, relation input result := by
  obtain ⟨result, hr, held⟩ := exists_of_mem_right h.flip hi
  exact ⟨result, hr, held⟩

/-- Of two lists that are related place by place, an entry of the first is
related to the one of the second in the same place. -/
theorem exists_of_getElem?_left {relation : β → γ → Prop} {inputs : List β} {results : List γ}
    (h : List.Forall₂ relation inputs results) {place : Nat} {input : β}
    (hi : inputs[place]? = some input) :
    ∃ result, results[place]? = some result ∧ relation input result := by
  induction h generalizing place with
  | nil => cases hi
  | cons head _ ih =>
    cases place with
    | zero =>
      cases hi
      exact ⟨_, rfl, head⟩
    | succ place => exact ih hi

/-- Of two lists that are related place by place to a third, the entries are
related to each other. -/
theorem forall₂_join {δ : Type} {first : β → γ → Prop} {second : β → δ → Prop}
    {joined : γ → δ → Prop} {inputs : List β} {results : List γ} {others : List δ}
    (h : List.Forall₂ first inputs results) (h' : List.Forall₂ second inputs others)
    (join : ∀ input result other, first input result → second input other →
      joined result other) : List.Forall₂ joined results others := by
  induction h generalizing others with
  | nil =>
    cases h'
    exact .nil
  | cons head _ ih =>
    cases h' with
    | cons head' rest' => exact .cons (join _ _ _ head head') (ih rest')

/-- Two lists that agree place by place in what is read off them. -/
theorem map_eq_map {δ : Type} {read : β → δ} {read' : γ → δ} {inputs : List β} {results : List γ}
    (h : List.Forall₂ (fun input result => read input = read' result) inputs results) :
    inputs.map read = results.map read' := by
  induction h with
  | nil => rfl
  | cons head _ ih => rw [List.map_cons, List.map_cons, head, ih]

end HorizonUct.Attempt
