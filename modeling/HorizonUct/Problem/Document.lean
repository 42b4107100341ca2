import HorizonUct.Problem
import HorizonUct.Json.Reader
import HorizonUct.Json.Record
import HorizonUct.Json.Writer
import HorizonUct.Text.File

/-!
# Problems as JSON documents

A document holds a decision process and may hold a name, constants and
earnings. What is read has been checked: no state outside the table is named.
-/

namespace HorizonUct

open Json (Draft required? defaulted?)

/-- Read an outcome. -/
def Outcome.ofJson? (j : Json) : Option (Outcome Float) := do
  let [probability, target] ← j.fields? ["probability", "target"] | none
  return ⟨← required? Json.double? probability, ← required? Json.natural? target⟩

/-- Read a choice. -/
def Choice.ofJson? (j : Json) : Option (Choice Float) := do
  let [action, outcomes] ← j.fields? ["action", "outcomes"] | none
  return ⟨← required? Json.text? action, ← required? (Json.list? Outcome.ofJson?) outcomes⟩

/-- Read the choices of a state, none when they are not given. -/
def Choice.stateOfJson? (j : Json) : Option (List (Choice Float)) := do
  let [choices] ← j.fields? ["choices"] | none
  defaulted? [] (Json.list? Choice.ofJson?) choices

/-- Read a decision process. -/
def Mdp.ofJson? (j : Json) : Option (Mdp Float) := do
  let [starts, states] ← j.fields? ["initial_states", "states"] | none
  return ⟨← required? (Json.list? Json.natural?) starts,
    (← required? (Json.list? Choice.stateOfJson?) states).toArray⟩

/-- Read what an earning is worth: a number or the name of a constant. -/
def Worth.ofJson? : Json → Option (Worth Float)
  | .number n => n.stepwise?.map .value
  | .string text => text.map .constant
  | _ => none

/-- Read an earning. -/
def Earning.ofJson? (j : Json) : Option (Earning Float) := do
  let [action, states, reward] ← j.fields? ["action", "states", "reward"] | none
  return ⟨← required? Json.text? action,
    ← defaulted? none (Json.optional? (Json.list? Json.natural?)) states,
    ← required? Worth.ofJson? reward⟩

/-- Read constants; of a repeated name the last value stays. -/
def Constants.ofJson? : Json → Option (Constants Float)
  | .object members =>
    (members.mapM entry).map ofList
  | _ => none
where
  /-- Read the definition of one constant. -/
  entry : Option String × Json → Option (String × Float)
    | (name, value) => do return (← name, ← value.double?)

/-- Read a problem without checking it. -/
def Problem.ofJson? (j : Json) : Option (Problem Float) := do
  let [name, mdp, constants, earnings] ← j.fields? ["name", "model", "constants", "rewards"] | none
  return ⟨← defaulted? none (Json.optional? Json.text?) name,
    ← required? Mdp.ofJson? mdp,
    ← defaulted? .empty Constants.ofJson? constants,
    ← defaulted? [] (Json.list? Earning.ofJson?) earnings⟩

/-- Read a problem from a text and check its decision process. -/
def Problem.read (text : String) : Except (Failure Float) (Problem Float) :=
  Text.accept (fun text => (Json.read? text).bind ofJson?) (fun problem => problem.mdp.check) text

/-- Read a problem from the bytes of a file, none when there is no such file. -/
def Problem.ofFile (bytes : Option ByteArray) : Except (Failure Float) (Problem Float) := do
  Problem.read (← Text.ofFile bytes)

/-- An outcome as it is written. -/
def Outcome.draft (outcome : Outcome Float) : Draft :=
  .record [("probability", .double outcome.probability), ("target", .natural outcome.target)]

/-- A choice as it is written. -/
def Choice.draft (choice : Choice Float) : Draft :=
  .record [("action", .text choice.action), ("outcomes", .list (choice.outcomes.map Outcome.draft))]

/-- A decision process as it is written. -/
def Mdp.draft (mdp : Mdp Float) : Draft :=
  .record [("initial_states", .list (mdp.starts.map .natural)),
    ("states", .list (mdp.states.toList.map fun choices =>
      .record [("choices", .list (choices.map Choice.draft))]))]

end HorizonUct
