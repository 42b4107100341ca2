import HorizonUct.About
import HorizonUct.CommandLine.LogFilter
import HorizonUct.CommandLine.Run
import HorizonUct.Journal.Text

/-!
# The program

The outer layer: it reads files, the clock and a seed, and writes the report,
the exports and the log. A usage fault ends it with status 2, a failure with
status 1.
-/

namespace HorizonUct.CommandLine

/-- How the program is called. -/
def usage : String :=
  About.description ++ "\n\nUsage: " ++ About.name ++ " [OPTIONS] <MODEL>\n\nOptions:\n" ++
    "  -c, --config <FILE>        settings as a JSON document\n" ++
    "  -d, --depth <N>            horizon\n" ++
    "  -i, --iterations <N>       number of rollouts\n" ++
    "  -s, --seed <N>             seed of the draws\n" ++
    "  -b, --bias <BIAS>          root-mean or a number\n" ++
    "      --time-limit-ms <N>    limit on time\n" ++
    "      --export-tra <FILE>    write the transitions of the chain\n" ++
    "      --export-json <FILE>   write the chain as JSON\n" ++
    "      --log-level <SPEC>     which log lines to show [default: info]\n" ++
    "      --log-dir <DIR>        write the log there\n" ++
    "  -h, --help\n  -V, --version"

/-- The bytes of a file, none when it cannot be read. -/
def readBytes (path : String) : IO (Option ByteArray) := do
  try
    return some (← IO.FS.readBinFile path)
  catch _ =>
    return none

/-- Search with the wall clock. -/
def searchTimed (planner : Planner (Cursor Float) Seeded Nat Float) :
    IO (Except (Failure Float) (Findings Nat Float) × Planner (Cursor Float) Seeded Nat Float) := do
  match planner.plant planner.settings with
  | .error failure => return (.error failure, planner)
  | .ok tree =>
    let start ← IO.monoMsNow
    let mut batch : Batch (Cursor Float) Seeded Nat Float :=
      .empty ((planner.progress tree).tell (.searchBegun planner.settings))
    for _ in [0:planner.settings.budget] do
      let elapsed := (← IO.monoMsNow) - start
      let (result, next) := batch.turn planner.rules planner.settings elapsed
      batch := next
      match result with
      | .error failure => return (.error failure, planner.resume batch.progress)
      | .ok false => break
      | .ok true => pure ()
    let (findings, planner) := planner.finish batch
    return (.ok findings, planner)

/-- Write log lines to the standard error stream or to a file in a directory. -/
def writeLog (directory : Option String) (lines : List String) : IO Unit := do
  match directory with
  | none => lines.forM IO.eprintln
  | some directory =>
    IO.FS.createDirAll directory
    let text := String.join (lines.map (· ++ "\n"))
    IO.FS.writeFile (directory ++ "/" ++ About.name ++ ".log") text

/-- Report a failure. -/
def fail (failure : Failure Float) : IO UInt32 := do
  IO.eprintln ("Error: " ++ failure.report)
  return 1

/-- Appraise the problem in a file. -/
def appraiseFile (file : String) (arguments : Arguments) : IO UInt32 := do
  let some directives := logFilter? (arguments.logLevel.getD "info")
    | do IO.eprintln "Error: the log level is malformed"; return 1
  let given ← match arguments.settingsFile with
    | some path => readBytes path
    | none => pure none
  match arguments.settings given with
  | .error failure => fail failure
  | .ok settings =>
    match Problem.ofFile (← readBytes file) with
    | .error failure => fail failure
    | .ok problem =>
      match planner problem settings (← IO.rand 0 (Nat.pow 2 63)) with
      | .error failure => fail failure
      | .ok planner =>
        let start ← IO.monoMsNow
        let (result, planner) ← searchTimed planner
        let seconds := Float.ofNat ((← IO.monoMsNow) - start) / 1000
        let (appraisal, journal) : Except (Failure Float) (Appraisal Nat Float) × Journal Float :=
          match result with
          | .error failure => (.error failure, [])
          | .ok findings => findings.appraise planner.reward settings.tolerance
        let shown := shownLevel directives About.name
        let events := (journal ++ planner.journal).reverse.filter fun event =>
          (level? event.level).any (· ≤ shown)
        writeLog arguments.logDirectory (events.map Event.line)
        match appraisal with
        | .error failure => fail failure
        | .ok appraisal =>
          (report appraisal seconds).forM IO.println
          for (path, text) in arguments.exports appraisal do
            IO.FS.writeFile path text
          return 0

end HorizonUct.CommandLine

open HorizonUct HorizonUct.CommandLine

/-- Run the program. -/
def main (arguments : List String) : IO UInt32 := do
  match request? arguments with
  | none =>
    IO.eprintln usage
    return 2
  | some .help =>
    IO.println usage
    return 0
  | some .version =>
    IO.println (About.name ++ " " ++ About.version)
    return 0
  | some (.appraise problem arguments) => appraiseFile problem arguments
