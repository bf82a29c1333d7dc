import CommandGrammar.CommandLine.Files
import CommandGrammar.CommandLine.Options
import CommandGrammar.CommandLine.Settings
import CommandGrammar.Json.Writer
import CommandGrammar.Store.Session
import CommandGrammar.Text.Lines

/-!
# Running the program

What the program does is a function of its arguments, the files that it may read and its input; it
gives what is written to the two outputs and the exit code. Lines given as arguments are executed
until one fails. The lines of the input are all executed, whatever becomes of them.
-/

namespace CommandGrammar.CommandLine

open Store (Session)

/-- What a run of the program leaves behind. -/
structure Outcome where
  /-- The exit code. -/
  code : Nat := 0
  /-- What was written to the output. -/
  output : String := ""
  /-- What was written to the output for errors. -/
  errors : String := ""
  deriving DecidableEq, Repr

/-- A text on a line of its own. -/
def asLine (text : String) : String := text ++ "\n"

/-- Texts, each on a line of its own. -/
def asLines (texts : List String) : String := String.join (texts.map asLine)

/-- An error on a line of its own. -/
def errorLine (text : String) : String := asLine ("error: " ++ text)

/-- The outcome of a run that has written some output and then failed. -/
def failed (output reason : String) : Outcome := ⟨1, output, errorLine reason⟩

/-! ### Reports -/

/-- A line and what became of it. -/
structure Report where
  /-- The line. -/
  line : String
  /-- Its output, or why it failed. -/
  result : Except Failure (List String)

namespace Report

/-- What the line wrote; a line that failed wrote nothing. -/
def output (report : Report) : List String :=
  match report.result with
  | .ok output => output
  | .error _ => []

/-- Why the line failed, if it did. -/
def failure? (report : Report) : Option Failure :=
  match report.result with
  | .ok _ => none
  | .error failure => some failure

/-- The report as data. What does not apply is left out. -/
def toJson (report : Report) : Json.Value :=
  let outcome : List (String × Json.Value) :=
    [("line", .string report.line), ("ok", .bool report.failure?.isNone),
      ("output", .array (report.output.map .string))]
  let error : List (String × Json.Value) :=
    match report.failure? with
    | none => []
    | some failure =>
      let position := failure.parseError?.toList.map fun e => ("position", .number e.index)
      ("error", .string failure.message) :: position
  .object (outcome ++ error)

end Report

/-! ### Tasks -/

/-- Executes lines until one fails, and reports on those that were executed. -/
def executeUntilFailure (session : Session) (context : Context) : List String → List Report
  | [] => []
  | line :: lines =>
    let (result, session) := session.execute context line
    let report : Report := ⟨line, result⟩
    if report.failure?.isSome then [report]
    else report :: executeUntilFailure session context lines

/-- Executes lines, and reports on all of them. -/
def executeAll (session : Session) (context : Context) : List String → List Report
  | [] => []
  | line :: lines =>
    let (result, session) := session.execute context line
    ⟨line, result⟩ :: executeAll session context lines

/-- Runs the lines of the arguments. -/
def runLines (session : Session) (context : Context) (format : Format) (lines : List String) :
    Outcome :=
  let reports := executeUntilFailure session context lines
  let output :=
    match format with
    | .text => asLines (reports.flatMap Report.output)
    | .json => asLine ((Json.Value.array (reports.map Report.toJson)).pretty 0)
  match reports.findSome? fun report => report.failure?.map fun failure => (report.line, failure) with
  | none => { output }
  | some (line, failure) => failed output s!"'{line}': {failure.message}"

/-- Tells the usage of what is below a path. -/
def runUsage (session : Session) (context : Context) (format : Format) (path : List String) :
    Outcome :=
  match session.usage context path with
  | .error violation => failed "" violation.message
  | .ok none => failed "" ("Unknown command path '" ++ " ".intercalate path ++ "'")
  | .ok (some lines) =>
    match format with
    | .text => { output := asLines lines }
    | .json =>
      { output := asLine (Json.Value.pretty 0 (.object [("usage", .array (lines.map .string))])) }

/-- What is shown of a report on a line of the input. -/
def showReport (format : Format) (report : Report) : Outcome :=
  match format with
  | .json => { output := asLine report.toJson.compact }
  | .text =>
    match report.result with
    | .ok output => { output := asLines output }
    | .error failure => { errors := errorLine failure.message }

/-- The lines of an input that is read up to its end or up to a line that is no text; the second part
says whether there is such a line. -/
def readInput : List (List UInt8) → List String × Bool
  | [] => ([], true)
  | bytes :: lines =>
    match String.fromUTF8? ⟨bytes.toArray⟩ with
    | none => ([], false)
    | some line =>
      let (others, isText) := readInput lines
      (String.ofList (dropWhileEnd (fun c => c == '\n' || c == '\r') line.toList) :: others, isText)

/-- Executes the lines of the input that are not empty. -/
def runInput (session : Session) (context : Context) (format : Format) (input : ByteArray) :
    Outcome :=
  let (lines, isText) := readInput (splitLines 10 input.toList)
  let shown :=
    (executeAll session context (lines.filter (! ·.isEmpty))).map (showReport format)
  let output := String.join (shown.map Outcome.output)
  let errors := String.join (shown.map Outcome.errors)
  if isText then { output, errors }
  else ⟨1, output, errors ++ errorLine "Failed to read stdin: stream did not contain valid UTF-8"⟩

/-! ### The program -/

/-- Reads the settings file, or says why that fails. -/
def loadSettings (files : Files) : Option String → Except String Settings
  | none => .ok {}
  | some path =>
    let failure (reason : String) : String := s!"Failed to load config '{path}': {reason}"
    match files path with
    | .error reason => .error (failure s!"I/O error: {reason.message}")
    | .ok .directory => .error (failure "YAML error: a directory cannot be read")
    | .ok (.bytes content) =>
      match (String.fromUTF8? content).bind Settings.read? with
      | some settings => .ok settings
      | none => .error (failure "YAML error: the settings are not understood")

/-- The text about the program. -/
def help : String :=
  asLines ["Usage: dispatch-shell [OPTIONS] run <LINES>...", "       dispatch-shell [OPTIONS] usage [PATH]...",
    "       dispatch-shell [OPTIONS] repl", "", "Options:",
    "      --config <CONFIG>  YAML file with the prompt and the usage style",
    "      --format <FORMAT>  text or json",
    "  -v, --verbose          ask for more messages",
    "      --admin            allow the commands of administrators",
    "  -h, --help             show this text"]

/-- The context of a caller who is or is not an administrator. -/
def contextOf (admin : Bool) : Context := Context.empty.put Store.admin admin

/-- A task with all that it needs. -/
structure Job where
  /-- The task. -/
  task : Task
  /-- A session with an empty store. -/
  session : Session
  /-- The context of all lines. -/
  context : Context
  /-- How results are told. -/
  format : Format
  /-- What is shown before a line is read from a terminal. -/
  prompt : String

/-- The job that the arguments ask for, or the outcome of a run that does not get so far. -/
def prepare (files : Files) (arguments : List String) : Except Outcome Job :=
  match readArguments {} arguments with
  | .error .help => .error { output := help }
  | .error .rejected =>
    .error { code := 2, errors := errorLine "the arguments are not understood" }
  | .ok (options, task) =>
    match loadSettings files options.config with
    | .error reason => .error (failed "" reason)
    | .ok settings =>
      .ok ⟨task, .new settings.style, contextOf options.admin, options.format.getD .text,
        settings.prompt⟩

/-- Does a job, with the bytes of the input. -/
def Job.run (job : Job) (input : ByteArray) : Outcome :=
  match job.task with
  | .run lines => runLines job.session job.context job.format lines
  | .usage path => runUsage job.session job.context job.format path
  | .repl => runInput job.session job.context job.format input

/-- Runs the program. -/
def run (files : Files) (arguments : List String) (input : ByteArray) : Outcome :=
  match prepare files arguments with
  | .error outcome => outcome
  | .ok job => job.run input

end CommandGrammar.CommandLine
