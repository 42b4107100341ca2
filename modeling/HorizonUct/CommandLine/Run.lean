import HorizonUct.CommandLine.Arguments
import HorizonUct.Decimal.Fixed
import HorizonUct.Draws.Seeded
import HorizonUct.Planner.Appraisal
import HorizonUct.Policy.Table
import HorizonUct.Problem.Document
import HorizonUct.Settings.Document

/-!
# What the command line does

Settings come from a file or are the standard ones; options override them; the
result is checked again. Then the problem is read, appraised and reported on
five lines, and the chain is exported where that was asked for.
-/

namespace HorizonUct.CommandLine

/-- Settings with what was given on the command line put in their place. -/
def Arguments.override (arguments : Arguments) (settings : Settings Float) : Settings Float where
  horizon := arguments.horizon.getD settings.horizon
  budget := arguments.budget.getD settings.budget
  bias := arguments.bias.getD settings.bias
  seed := arguments.seed <|> settings.seed
  tolerance := settings.tolerance
  timeLimit := arguments.timeLimit <|> settings.timeLimit

/-- The settings of a run, with the bytes of the settings file if there is one. -/
def Arguments.settings (arguments : Arguments) (file : Option ByteArray) :
    Except (Failure Float) (Settings Float) := do
  let given ← if arguments.settingsFile.isSome then Settings.ofFile file else .ok .standard
  let settings := arguments.override given
  settings.check
  return settings

/-- A planner for a problem, with a seed for draws that have none. -/
def planner (problem : Problem Float) (settings : Settings Float) (seed : Nat) :
    Except (Failure Float) (Planner (Cursor Float) Seeded Nat Float) :=
  Planner.create (.ofMdp problem.mdp) problem.scheme.earned
    (.ofSeed (settings.seed.getD seed).toUInt64) settings

/-- The report of an appraisal that took the given number of seconds. -/
def report (appraisal : Appraisal Nat Float) (seconds : Float) : List String :=
  ["Estimated value:      " ++ Decimal.fixed 6 appraisal.estimate,
    "Induced chain value:  " ++ Decimal.fixed 6 appraisal.value,
    "Best actions:         " ++ " -> ".intercalate appraisal.advice,
    s!"Induced chain:        {appraisal.chain.size} states, " ++
      s!"{appraisal.chain.transitionCount} transitions",
    s!"Search:               {appraisal.tally.line}, " ++ Decimal.fixed 3 seconds ++ "s"]

/-- The files that an appraisal is exported to, with their texts, in order. -/
def Arguments.exports (arguments : Arguments) (appraisal : Appraisal Nat Float) :
    List (String × String) :=
  (arguments.exportTable.map fun path => (path, appraisal.chain.table)).toList ++
    (arguments.exportJson.map fun path => (path, appraisal.chain.draft.pretty)).toList

end HorizonUct.CommandLine
