/-!
# The options of the program

The program takes options and one of three tasks: to run lines that are given as arguments, to tell
the usage of what is below a path, or to read lines from its input. Options may stand before and
behind the name of the task, and among its arguments; behind a double dash everything is an
argument of the task. An option other than the count of verbosity may stand only once in front of
the task and once behind it, and the later one counts.
-/

namespace CommandGrammar.CommandLine

/-- How results are told. -/
inductive Format where
  /-- Line by line. -/
  | text
  /-- As JSON. -/
  | json
  deriving DecidableEq, Repr

/-- What the program is asked to do. -/
inductive Task where
  /-- Executes lines until one fails. -/
  | run (lines : List String)
  /-- Tells the usage of what is below a path. -/
  | usage (path : List String)
  /-- Executes the lines of the input. -/
  | repl
  deriving DecidableEq, Repr

/-- Options as far as they were given. -/
structure Options where
  /-- The path of the settings file. -/
  config : Option String := none
  /-- How results are told. -/
  format : Option Format := none
  /-- How often more messages were asked for. -/
  verbosity : Nat := 0
  /-- Whether the caller is an administrator. -/
  admin : Bool := false
  deriving DecidableEq, Repr

/-- Why the arguments do not name a task. -/
inductive Stop where
  /-- Help was asked for. -/
  | help
  /-- The arguments are not understood. -/
  | rejected
  deriving DecidableEq, Repr

namespace Options

/-- The options in front of the task together with those behind it. -/
def override (front behind : Options) : Options where
  config := behind.config <|> front.config
  format := behind.format <|> front.format
  verbosity := if behind.verbosity = 0 then front.verbosity else behind.verbosity
  admin := front.admin || behind.admin

/-- Sets an option that has a value. -/
def setValue (options : Options) (name value : String) : Except Stop Options :=
  match name with
  | "config" =>
    if options.config.isSome || value.isEmpty then .error .rejected
    else .ok { options with config := some value }
  | "format" =>
    if options.format.isSome then .error .rejected
    else
      match value with
      | "text" => .ok { options with format := some .text }
      | "json" => .ok { options with format := some .json }
      | _ => .error .rejected
  | _ => .error .rejected

/-- Sets an option that has no value. -/
def setSwitch (options : Options) (name : String) : Except Stop Options :=
  match name with
  | "verbose" => .ok { options with verbosity := options.verbosity + 1 }
  | "admin" => if options.admin then .error .rejected else .ok { options with admin := true }
  | "help" => .error .help
  | _ => .error .rejected

/-- Sets an option given by a letter. -/
def setLetter (options : Options) (letter : Char) : Except Stop Options :=
  match letter with
  | 'v' => options.setSwitch "verbose"
  | 'h' => options.setSwitch "help"
  | _ => .error .rejected

end Options

/-! ### Arguments of the program -/

/-- What an argument of the program looks like. -/
inductive Word where
  /-- A double dash, behind which there are no options. -/
  | endOfOptions
  /-- The name of an option, and the text behind an equals sign, if there is one. -/
  | option (name : String) (value : Option String)
  /-- Options given by letters. -/
  | letters (letters : List Char)
  /-- No option. -/
  | plain (text : String)
  deriving DecidableEq, Repr

/-- Looks at an argument. A single dash is no option. -/
def Word.ofString (text : String) : Word :=
  match text.toList with
  | ['-', '-'] => .endOfOptions
  | '-' :: '-' :: rest =>
    let name := String.ofList (rest.takeWhile (· != '='))
    match rest.dropWhile (· != '=') with
    | _ :: value => .option name (some (String.ofList value))
    | [] => .option name none
  | '-' :: letter :: others => .letters (letter :: others)
  | _ => .plain text

/-- The options whose value may be the next argument. -/
def takesValue (name : String) : Bool := name == "config" || name == "format"

/-- Reads the arguments of a task, and the options among them. -/
def readTask (acceptsWords : Bool) (options : Options) (words : List String) :
    List String → Except Stop (Options × List String)
  | [] => .ok (options, words)
  | argument :: rest =>
    match Word.ofString argument with
    | .endOfOptions =>
      if acceptsWords || rest.isEmpty then .ok (options, words ++ rest) else .error .rejected
    | .plain text =>
      if acceptsWords then readTask acceptsWords options (words ++ [text]) rest
      else .error .rejected
    | .letters letters => do
      readTask acceptsWords (← letters.foldlM Options.setLetter options) words rest
    | .option name (some value) => do
      readTask acceptsWords (← options.setValue name value) words rest
    | .option name none =>
      if takesValue name then
        match rest with
        | [] => .error .rejected
        | value :: rest =>
          match Word.ofString value with
          | .plain value => do
            readTask acceptsWords (← options.setValue name value) words rest
          | _ => .error .rejected
      else do readTask acceptsWords (← options.setSwitch name) words rest

/-- The names of tasks for which help can be asked. -/
def helpTopics : List String := ["run", "usage", "repl", "help"]

/-- Reads the arguments of the program. -/
def readArguments (front : Options) : List String → Except Stop (Options × Task)
  | [] => .error .rejected
  | argument :: rest =>
    match Word.ofString argument with
    | .endOfOptions => .error .rejected
    | .plain "run" => do
      let (behind, lines) ← readTask true {} [] rest
      if lines.isEmpty then .error .rejected else return (front.override behind, .run lines)
    | .plain "usage" => do
      let (behind, path) ← readTask true {} [] rest
      return (front.override behind, .usage path)
    | .plain "repl" => do
      let (behind, _) ← readTask false {} [] rest
      return (front.override behind, .repl)
    | .plain "help" =>
      match rest with
      | [] => .error .help
      | [topic] => .error (if topic ∈ helpTopics then .help else .rejected)
      | _ => .error .rejected
    | .plain _ => .error .rejected
    | .letters letters => do readArguments (← letters.foldlM Options.setLetter front) rest
    | .option name (some value) => do readArguments (← front.setValue name value) rest
    | .option name none =>
      if takesValue name then
        match rest with
        | [] => .error .rejected
        | value :: rest =>
          match Word.ofString value with
          | .plain value => do readArguments (← front.setValue name value) rest
          | _ => .error .rejected
      else do readArguments (← front.setSwitch name) rest

end CommandGrammar.CommandLine
