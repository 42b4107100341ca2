import HorizonUct.Settings.Text

/-!
# Arguments of the command line

One argument names the file with the problem; options choose the settings, the
exports and the log. An option has a long name, most have a letter too. Its
value stands in the next argument or behind an equals sign, and behind a
letter also without one. A value of its own must not start with a dash, and no
option is repeated.
-/

namespace HorizonUct.CommandLine

/-- What was given on the command line. -/
structure Arguments where
  /-- The file with the problem. -/
  problem : Option String := none
  /-- A file with settings. -/
  settingsFile : Option String := none
  /-- The horizon. -/
  horizon : Option Nat := none
  /-- The number of rollouts. -/
  budget : Option Nat := none
  /-- The seed of the draws. -/
  seed : Option Nat := none
  /-- The exploration bias. -/
  bias : Option (Bias Float) := none
  /-- The limit on time in milliseconds. -/
  timeLimit : Option Nat := none
  /-- A file for the transition table. -/
  exportTable : Option String := none
  /-- A file for the chain. -/
  exportJson : Option String := none
  /-- Which log lines to show. -/
  logLevel : Option String := none
  /-- A directory for the log. -/
  logDirectory : Option String := none

/-- What the command line asks for. -/
inductive Request where
  /-- An appraisal of the problem in a file. -/
  | appraise (problem : String) (arguments : Arguments)
  /-- The version of the program. -/
  | version
  /-- How the program is called. -/
  | help

/-- What an option does. -/
inductive OptionKind where
  /-- It asks for something else than an appraisal. -/
  | request (request : Request)
  /-- It sets what its value says, unless that has been set or the value is refused. -/
  | valued (set : Arguments → String → Option Arguments)

/-- An option of the command line. -/
structure CommandOption where
  /-- The name behind two dashes. -/
  name : String
  /-- The letter behind one dash, if there is one. -/
  letter : Option Char
  /-- What the option does. -/
  kind : OptionKind

/-- Set something once. -/
def setOnce {β : Type} (read : String → Option β) (get : Arguments → Option β)
    (put : Arguments → β → Arguments) : OptionKind :=
  .valued fun arguments text =>
    if (get arguments).isSome then none else (read text).map (put arguments)

/-- Read the name of a file, which must not be empty. -/
def fileName? (text : String) : Option String := if text.isEmpty then none else some text

/-- The options of the program. -/
def options : List CommandOption :=
  [⟨"config", some 'c',
      setOnce fileName? (·.settingsFile) fun a x => { a with settingsFile := some x }⟩,
    ⟨"depth", some 'd',
      setOnce Decimal.readNatural? (·.horizon) fun a x => { a with horizon := some x }⟩,
    ⟨"iterations", some 'i',
      setOnce Decimal.readNatural? (·.budget) fun a x => { a with budget := some x }⟩,
    ⟨"seed", some 's', setOnce Decimal.readNatural? (·.seed) fun a x => { a with seed := some x }⟩,
    ⟨"bias", some 'b',
      setOnce (fun text => (Bias.ofText text).toOption) (·.bias)
        fun a x => { a with bias := some x }⟩,
    ⟨"time-limit-ms", none,
      setOnce Decimal.readNatural? (·.timeLimit) fun a x => { a with timeLimit := some x }⟩,
    ⟨"export-tra", none,
      setOnce fileName? (·.exportTable) fun a x => { a with exportTable := some x }⟩,
    ⟨"export-json", none,
      setOnce fileName? (·.exportJson) fun a x => { a with exportJson := some x }⟩,
    ⟨"log-level", none, setOnce some (·.logLevel) fun a x => { a with logLevel := some x }⟩,
    ⟨"log-dir", none,
      setOnce fileName? (·.logDirectory) fun a x => { a with logDirectory := some x }⟩,
    ⟨"version", some 'V', .request .version⟩,
    ⟨"help", some 'h', .request .help⟩]

/-- Take an argument that is no option: the file with the problem. -/
def positional (arguments : Arguments) (text : String) : Option Arguments :=
  if arguments.problem.isSome then none
  else (fileName? text).map fun name => { arguments with problem := some name }

/-- Split a text at its first equals sign. -/
def splitAssignment (text : List Char) : List Char × Option (List Char) :=
  match text.dropWhile (· != '=') with
  | _ :: value => (text.takeWhile (· != '='), some value)
  | [] => (text, none)

/-- The option that an argument names and the value attached to it, if any. An
argument that is no option has the form of a value. -/
inductive Form where
  /-- Not an option. -/
  | value
  /-- Two dashes: no options follow. -/
  | stop
  /-- An option, with the value attached to it. -/
  | option (option : CommandOption) (attached : Option String)
  /-- An option that the program does not have. -/
  | unknown

/-- The form of an argument. -/
def form (text : String) : Form :=
  match text.toList with
  | ['-', '-'] => .stop
  | '-' :: '-' :: rest =>
    let (name, attached) := splitAssignment rest
    match options.find? (·.name == String.ofList name) with
    | some option => .option option (attached.map String.ofList)
    | none => .unknown
  | '-' :: letter :: rest =>
    match options.find? (·.letter == some letter) with
    | some option =>
      let attached := match rest with
        | [] => none
        | '=' :: value => some value
        | value => some value
      .option option (attached.map String.ofList)
    | none => .unknown
  | _ => .value

/-- Take the arguments behind two dashes. -/
def takeRest (arguments : Arguments) (rest : List String) : Option Arguments :=
  rest.foldlM positional arguments

/-- Take arguments in order. Asking for the version or for help ends it, and so
does the first fault, which is `none`. -/
def take (arguments : Arguments) : List String → Option Request
  | [] => arguments.problem.map fun problem => .appraise problem arguments
  | text :: rest =>
    match form text with
    | .unknown => none
    | .stop =>
      (takeRest arguments rest).bind fun arguments =>
        arguments.problem.map fun problem => .appraise problem arguments
    | .value =>
      match positional arguments text with
      | some arguments => take arguments rest
      | none => none
    | .option ⟨name, _, .request request⟩ attached =>
      match attached with
      | none => some request
      | some _ => if text.startsWith ("--" ++ name) then none else some request
    | .option ⟨_, _, .valued set⟩ (some value) =>
      match set arguments value with
      | some arguments => take arguments rest
      | none => none
    | .option ⟨_, _, .valued set⟩ none =>
      match rest with
      | value :: rest =>
        match form value with
        | .value =>
          match set arguments value with
          | some arguments => take arguments rest
          | none => none
        | _ => none
      | [] => none

/-- What a command line asks for, none when it is malformed. -/
def request? (arguments : List String) : Option Request := take {} arguments

end HorizonUct.CommandLine
