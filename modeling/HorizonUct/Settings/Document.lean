import HorizonUct.Json.Reader
import HorizonUct.Json.Record
import HorizonUct.Json.Writer
import HorizonUct.Settings
import HorizonUct.Text.File

/-!
# Settings as JSON documents

Every field may be left out and then has its standard value; only the seed and
the limit on time may be null. What is read has been checked.
-/

namespace HorizonUct

open Json (Draft defaulted?)

/-- Read a bias: the name of the root mean, alone or with null, or a fixed weight. -/
def Bias.ofJson? : Json → Option (Bias Float)
  | .string (some "root_mean") => some .rootMean
  | .object [(some "root_mean", .null)] => some .rootMean
  | .object [(some "fixed", weight)] => weight.double?.map .fixed
  | _ => none

/-- Read settings, without checking them. -/
def Settings.ofJson? (j : Json) : Option (Settings Float) := do
  let [horizon, budget, bias, seed, tolerance, timeLimit] ← j.fields?
    ["depth", "iterations", "bias", "seed", "probability_tolerance", "time_limit_ms"] | none
  return {
    horizon := ← defaulted? standard.horizon Json.natural? horizon
    budget := ← defaulted? standard.budget Json.natural? budget
    bias := ← defaulted? standard.bias Bias.ofJson? bias
    seed := ← defaulted? standard.seed (Json.optional? Json.natural?) seed
    tolerance := ← defaulted? standard.tolerance Json.double? tolerance
    timeLimit := ← defaulted? standard.timeLimit (Json.optional? Json.natural?) timeLimit }

/-- Read settings from a text and check them. -/
def Settings.read (text : String) : Except (Failure Float) (Settings Float) :=
  Text.accept (fun text => (Json.read? text).bind ofJson?) check text

/-- Read settings from the bytes of a file, none when there is no such file. -/
def Settings.ofFile (bytes : Option ByteArray) : Except (Failure Float) (Settings Float) := do
  Settings.read (← Text.ofFile bytes)

/-- A bias as it is written. -/
def Bias.draft : Bias Float → Draft
  | .rootMean => .text "root_mean"
  | .fixed weight => .record [("fixed", .double weight)]

/-- Settings as they are written. -/
def Settings.draft (settings : Settings Float) : Draft :=
  .record [("depth", .natural settings.horizon), ("iterations", .natural settings.budget),
    ("bias", settings.bias.draft), ("seed", .optional .natural settings.seed),
    ("probability_tolerance", .double settings.tolerance),
    ("time_limit_ms", .optional .natural settings.timeLimit)]

end HorizonUct
