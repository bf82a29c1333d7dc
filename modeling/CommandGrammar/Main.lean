import CommandGrammar.CommandLine.Run

/-!
# The program

Reads the arguments and the input, and writes what `CommandGrammar.CommandLine.run` says. At a
terminal every line is answered before the next one is read.
-/

namespace CommandGrammar.CommandLine

/-- Writes an outcome, and gives its exit code. -/
def report (outcome : Outcome) : IO UInt32 := do
  let output ← IO.getStdout
  output.putStr outcome.output
  output.flush
  (← IO.getStderr).putStr outcome.errors
  return outcome.code.toUInt32

/-- Reads a file. -/
def readFile (path : String) : IO (Except PathError File) := do
  try
    return .ok (.bytes (← IO.FS.readBinFile path))
  catch
    | .noFileOrDirectory .. => return .error .missing
    | .permissionDenied .. => return .error .noPermission
    | .inappropriateType _ code _ =>
      -- the number of the error for a directory that cannot be read
      return if code = 21 then .ok .directory else .error .notDirectory
    | .invalidArgument .. => return .error .nameTooLong
    | e => return .error (.other (toString e))

/-- Answers the lines typed at a terminal. -/
partial def converse (job : Job) (session : Store.Session) : IO UInt32 := do
  let output ← IO.getStdout
  output.putStr job.prompt
  output.flush
  let typed ← (← IO.getStdin).getLine
  if typed.isEmpty then return 0
  let line := String.ofList (dropWhileEnd (fun c => c == '\n' || c == '\r') typed.toList)
  if line.isEmpty then converse job session
  else
    let (result, session) := session.execute job.context line
    discard (report (showReport job.format ⟨line, result⟩))
    converse job session

/-- Runs the program. -/
def start (arguments : List String) : IO UInt32 := do
  let path? := match readArguments {} arguments with
    | .ok (options, _) => options.config
    | .error _ => none
  let file ← match path? with
    | some path => readFile path
    | none => pure (.error .missing)
  match prepare (fun _ => file) arguments with
  | .error outcome => report outcome
  | .ok job =>
    let input ← IO.getStdin
    match job.task with
    | .repl =>
      if ← input.isTty then converse job job.session
      else report (job.run (← input.readBinToEnd))
    | _ => report (job.run .empty)

end CommandGrammar.CommandLine

/-- The entry of the program. -/
def main (arguments : List String) : IO UInt32 := CommandGrammar.CommandLine.start arguments
