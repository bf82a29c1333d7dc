import CommandGrammar.Grammar.Edit
import CommandGrammar.Match
import CommandGrammar.Usage.Line

/-!
# Dispatchers

A `Dispatcher` is a grammar with a style for its usage lines. `select` says which command a line
runs and with which bindings, and `execute` runs it. A line that does not match at all, or that has
text left over before any of its literals, is an unknown command; one with text left over behind a
literal has an unknown argument. A line that ends where there is no command does nothing.
-/

namespace CommandGrammar

/-- A grammar with a style for its usage lines. -/
structure Dispatcher (κ : Type) where
  /-- The grammar. -/
  tree : Tree κ := .empty
  /-- The style. -/
  style : UsageStyle := {}

namespace Dispatcher

variable {κ : Type}

/-- Adds a command below the root, or merges it with the one of its name. -/
def register (d : Dispatcher κ) (draft : CommandDraft κ) :
    Except Violation (Dispatcher κ × NodeId) := do
  let (tree, id) ← d.tree.add Tree.root draft.toSpec
  return ({ d with tree }, id)

/-- Takes the command of a name away from the root. -/
def remove (d : Dispatcher κ) (name : String) : Except Violation (Dispatcher κ × Option NodeId) := do
  let (tree, id) ← d.tree.remove Tree.root name
  return ({ d with tree }, id)

/-- Matches a line. -/
def parse (d : Dispatcher κ) (context : Context) (line : String) :
    Except Failure (Option Match) :=
  d.tree.matchAt context (.atStart line)

/-- The command that a match runs, and the bindings that it runs with. -/
def selectMatch (d : Dispatcher κ) (m : Match) : Except Failure (Option (κ × Bindings)) :=
  if m.cursor.readable then
    .error (.parse ⟨if m.trail.literals.isEmpty then .unknownCommand else .unknownArgument, m.cursor⟩)
  else
    match d.tree.node m.node with
    | .error violation => .error (.violation violation)
    | .ok node =>
      if node.isFlag then .error (.parse ⟨.unknownArgument, m.cursor⟩)
      else .ok (node.command?.map fun command => (command, m.trail.toBindings))

/-- The command that a line runs, and the bindings that it runs with. -/
def select (d : Dispatcher κ) (context : Context) (line : String) :
    Except Failure (Option (κ × Bindings)) :=
  match d.parse context line with
  | .error failure => .error failure
  | .ok none => .error (.parse ⟨.unknownCommand, .atStart line⟩)
  | .ok (some m) => d.selectMatch m

/-- What running commands does: it changes a state, and may fail. -/
abbrev Action (σ α : Type) := ExceptT Failure (StateM σ) α

/-- Runs what was selected. -/
def runSelected {σ : Type} (run : κ → Bindings → Action σ Unit) :
    Except Failure (Option (κ × Bindings)) → Action σ Unit
  | .error failure => throw failure
  | .ok none => pure ()
  | .ok (some (command, bindings)) => run command bindings

/-- Runs the command of a match. -/
def executeMatch {σ : Type} (d : Dispatcher κ) (run : κ → Bindings → Action σ Unit) (m : Match) :
    Action σ Unit :=
  runSelected run (d.selectMatch m)

/-- Runs the command of a line. -/
def execute {σ : Type} (d : Dispatcher κ) (run : κ → Bindings → Action σ Unit) (context : Context)
    (line : String) : Action σ Unit :=
  runSelected run (d.select context line)

/-- The usage of a node. -/
def usage (d : Dispatcher κ) (context : Context) (id : NodeId) :
    Except Violation (List (NodeId × String)) :=
  d.tree.usage d.style context id

/-- The usage of the node at the end of a path, with the path before every line. -/
def usageLines (d : Dispatcher κ) (context : Context) (path : List String) :
    Except Violation (Option (List String)) := do
  match ← d.tree.find? path with
  | none => return none
  | some id =>
    let lines ← d.usage context id
    let sign := String.singleton separator
    let front := sign.intercalate path
    return some (lines.map fun (_, line) => if front.isEmpty then line else front ++ sign ++ line)

end Dispatcher

end CommandGrammar
