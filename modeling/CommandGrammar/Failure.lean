import CommandGrammar.Context
import CommandGrammar.ParseError

/-!
# Failures

Executing a line can fail in four ways: the line cannot be read, a command needs a context value
that is not there, a command fails by itself, or someone has broken the rules by which grammars are
built and used. The last is a `Violation`: no command line causes it in a grammar whose commands
ask only for their own arguments and whose redirects lead to nodes that can end a line.
-/

namespace CommandGrammar

/-- The number of a node, in the order of insertion; the root is `0`. -/
abbrev NodeId := Nat

/-- A breach of the rules by which grammars are built and used. -/
inductive Violation where
  /-- A second command for a node that has one. -/
  | commandReplaced
  /-- A redirect on a node that has children. -/
  | redirectOverChildren
  /-- A child below a node that has a redirect. -/
  | childUnderRedirect
  /-- A redirect to another place on a node that has one. -/
  | redirectReplaced
  /-- A redirect to what is no node that can end a line. -/
  | redirectTarget (target : NodeId)
  /-- A command asks for an argument that its line does not have. -/
  | missingArgument (name : String)
  /-- A command asks for an argument as a value of another type. -/
  | mistypedArgument (name : String) (type : ValueType)
  /-- There is no node with this number. -/
  | unknownNode (size : Nat) (id : NodeId)
  deriving DecidableEq, Repr

namespace Violation

/-- The text of a violation. -/
def message : Violation → String
  | commandReplaced => "cannot replace the command bound to a node"
  | redirectOverChildren => "cannot redirect a node with children"
  | childUnderRedirect => "cannot add children to a redirected node"
  | redirectReplaced => "cannot replace the redirect of a node"
  | redirectTarget target => s!"redirect target #{target} is not an executable node of this tree"
  | missingArgument name => s!"no such argument '{name}' exists on this command"
  | mistypedArgument name type => s!"argument '{name}' was not parsed as {type.name}"
  | unknownNode size id => s!"index out of bounds: the len is {size} but the index is {id}"

end Violation

/-- Why a line was not executed. -/
inductive Failure where
  /-- The line cannot be read. -/
  | parse (error : ParseError)
  /-- A command needs a context value that is not there. -/
  | missingValue (name : String) (type : ValueType)
  /-- A command failed by itself. -/
  | action (text : String)
  /-- The rules of grammars are broken. -/
  | violation (breach : Violation)
  deriving DecidableEq

namespace Failure

/-- The text of a failure. -/
def message : Failure → String
  | parse error => error.message
  | missingValue name type => s!"no context value '{name}' of type {type.name}"
  | action text => s!"command failed: {text}"
  | violation breach => breach.message

/-- The error in the line, if that is why it failed. -/
def parseError? : Failure → Option ParseError
  | parse error => some error
  | _ => none

end Failure

/-- Two steps in a row succeed only if the first one does, and the second one with its result. -/
theorem exists_of_bind_eq_ok {ε α β : Type} {first : Except ε α} {second : α → Except ε β} {b : β}
    (h : first >>= second = .ok b) : ∃ a, first = .ok a ∧ second a = .ok b := by
  cases first with
  | error e => cases h
  | ok a => exact ⟨a, rfl, h⟩

theorem exists_of_map_eq_ok {ε α β : Type} {result : Except ε α} {f : α → β} {b : β}
    (h : result.map f = .ok b) : ∃ a, result = .ok a ∧ f a = b := by
  cases result with
  | error e => cases h
  | ok a => exact ⟨a, rfl, Except.ok.inj h⟩

/-- The value of a key, which must have one. -/
def Context.require {τ : ValueType} (context : Context) (key : Key τ) :
    Except Failure τ.Carrier :=
  (TypedTable.require context key).mapError fun missing => .missingValue missing.name missing.type

end CommandGrammar
