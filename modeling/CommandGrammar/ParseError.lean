import CommandGrammar.Cursor
import CommandGrammar.Number

/-!
# Errors in a command line

A `ParseError` is a cause and the place in the line where reading stopped. Since the place is a
cursor, an error always lies between two characters of its line, and its message can show exactly
the text that was read before it.
-/

namespace CommandGrammar

/-- Why a command line cannot be read. -/
inductive ParseCause where
  /-- There is no number of a kind. -/
  | expectedNumber (kind : NumberKind)
  /-- The text at the place of a number is no number of its kind. -/
  | invalidNumber (kind : NumberKind) (text : String)
  /-- A number is less than it may be. -/
  | numberTooLow (least value : Number)
  /-- A number is greater than it may be. -/
  | numberTooHigh (greatest value : Number)
  /-- A quoted text does not begin with a quote. -/
  | expectedOpeningQuote
  /-- A quoted text is not closed. -/
  | expectedClosingQuote
  /-- A backslash stands before a character that cannot be escaped. -/
  | invalidEscape (escape : Char)
  /-- A word is neither `true` nor `false`. -/
  | invalidBoolean (word : String)
  /-- No command begins here. -/
  | unknownCommand
  /-- The command has no use for the text here. -/
  | unknownArgument
  /-- A part of the line is not followed by a separator. -/
  | incompleteParse
  /-- An argument type of the caller refuses the text. -/
  | custom (message : String)
  deriving DecidableEq, Repr

namespace ParseCause

/-- The text of a cause. -/
def message : ParseCause → String
  | expectedNumber kind => s!"expected {kind.name}"
  | invalidNumber kind text => s!"invalid {kind.name} '{text}'"
  | numberTooLow least value =>
    s!"found {value.kind.name} with value of {value.text}, expected a value of {least.text} or greater"
  | numberTooHigh greatest value =>
    s!"found {value.kind.name} with value of {value.text}, expected a value of {greatest.text} or less"
  | expectedOpeningQuote => "expected quote to start a string"
  | expectedClosingQuote => "expected quote to end a string"
  | invalidEscape escape => s!"invalid escape sequence '{escape}'"
  | invalidBoolean word => s!"invalid boolean '{word}', expected 'true' or 'false'"
  | unknownCommand => "unknown command"
  | unknownArgument => "unknown argument"
  | incompleteParse =>
    "expected argument separator (' '), but found a node that has not been completely parsed"
  | custom message => message

end ParseCause

/-- A cause at a place of a line. -/
structure ParseError where
  /-- Why reading stopped. -/
  cause : ParseCause
  /-- Where reading stopped. -/
  place : Cursor
  deriving DecidableEq

namespace ParseError

/-- The byte offset of the place. -/
def index (e : ParseError) : Nat := e.place.index

/-- The whole line. -/
def line (e : ParseError) : String := String.ofList e.place.line

/-- The text of an error: the cause, the offset, and the line up to there. -/
def message (e : ParseError) : String :=
  s!"{e.cause.message} at position {e.index}: '{String.ofList e.place.consumed}'"

end ParseError

/-- What reading at a place gives: a value and the place behind it, or an error. -/
abbrev Reading (α : Type) := Except ParseError (α × Cursor)

/-- The same reading with another form of the value. -/
def Reading.as {α β : Type} (f : α → β) : Reading α → Reading β
  | .ok (a, after) => .ok (f a, after)
  | .error e => .error e

theorem Reading.exists_of_as_eq_ok {α β : Type} {f : α → β} {r : Reading α} {b : β} {after : Cursor}
    (h : Reading.as f r = .ok (b, after)) : ∃ a, r = .ok (a, after) ∧ f a = b := by
  cases r with
  | error e => simp [Reading.as] at h
  | ok p =>
    simp only [Reading.as, Except.ok.injEq, Prod.mk.injEq] at h
    exact ⟨p.1, by rw [← h.2], h.1⟩

/-- Fails at a place. -/
def Cursor.fail {α : Type} (c : Cursor) (cause : ParseCause) : Except ParseError α :=
  .error ⟨cause, c⟩

end CommandGrammar
