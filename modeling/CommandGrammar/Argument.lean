import CommandGrammar.Failure
import CommandGrammar.Text.Blank
import CommandGrammar.Text.Quoted

/-!
# Arguments

An `ArgumentType` reads a value from a place in a line. The types at hand are numbers with optional
bounds, three modes of texts, and booleans; a caller may bring a `CustomType` of its own, which has
to show that it only moves forward.

An `Argument` gives a type a name and an identity. Values are collected under the identity, so two
arguments of one name do not share a value.

Main statement: no type moves backward (`ArgumentType.advances_of_read`).
-/

namespace CommandGrammar

/-- The value of an argument. -/
inductive Value where
  /-- A number. -/
  | number (n : Number)
  /-- A text. -/
  | text (s : String)
  /-- A truth value. -/
  | boolean (b : Bool)
  deriving DecidableEq, Repr

/-- How a value is written. -/
def Value.write : Value → String
  | number n => n.text
  | text s => s
  | boolean b => toString b

/-! ### Numbers -/

namespace NumberDomain

variable {α : Type}

/-- The bounds given by a least and a greatest number, either of which may be left out for the
extreme number of the kind; without both there are no bounds. -/
def bounds (domain : NumberDomain α) : Option α → Option α → Option (α × α)
  | none, none => none
  | least, greatest => some (least.getD domain.least, greatest.getD domain.greatest)

/-- What is wrong with a number that lies outside of bounds; the lower one is looked at first. -/
def boundFault? (domain : NumberDomain α) (bounds : Option (α × α)) (value : α) :
    Option ParseCause :=
  match bounds with
  | none => none
  | some (least, greatest) =>
    if domain.lt value least then
      some (.numberTooLow (domain.toNumber least) (domain.toNumber value))
    else if domain.lt greatest value then
      some (.numberTooHigh (domain.toNumber greatest) (domain.toNumber value))
    else none

/-- Reads the longest run of characters that a number of the kind may hold. Every error lies before
the run. -/
def read (domain : NumberDomain α) (bounds : Option (α × α)) (c : Cursor) : Reading α :=
  let run := c.rest.takeWhile domain.kind.allows
  if run = [] then c.fail (.expectedNumber domain.kind)
  else
    match domain.read? run with
    | none => c.fail (.invalidNumber domain.kind (String.ofList run))
    | some value =>
      match domain.boundFault? bounds value with
      | some cause => c.fail cause
      | none => .ok (value, c.dropWhile domain.kind.allows)

end NumberDomain

/-! ### Texts and booleans -/

/-- How much of a line a text takes. -/
inductive TextMode where
  /-- Up to the next blank. -/
  | word
  /-- All of the rest. -/
  | greedy
  /-- What stands between two quotes. -/
  | quoted
  deriving DecidableEq, Repr

/-- Whether a character may stand in a word. -/
def inWord (c : Char) : Bool := !isBlank c

/-- Reads up to the next blank; the word may be empty. -/
def readWord (c : Cursor) : Reading String :=
  .ok (String.ofList (c.rest.takeWhile inWord), c.dropWhile inWord)

/-- Reads all of the rest. -/
def readGreedy (c : Cursor) : Reading String :=
  .ok (String.ofList c.rest, c.advance c.rest.length)

/-- Reads a quoted text. -/
def readQuoted (c : Cursor) : Reading String :=
  if c.peek = some Quoted.quote then
    let scan := Quoted.scanBody (c.rest.drop 1)
    let after := c.advance (1 + scan.length)
    match scan.outcome with
    | .ok content => .ok (String.ofList content, after)
    | .error .unclosed => after.fail .expectedClosingQuote
    | .error (.badEscape d) => after.fail (.invalidEscape d)
  else c.fail .expectedOpeningQuote

/-- Reads the word `true` or `false`. An error lies before the word. -/
def readBoolean (c : Cursor) : Reading Bool :=
  let after := c.dropWhile inWord
  match String.ofList (c.rest.takeWhile inWord) with
  | "true" => .ok (true, after)
  | "false" => .ok (false, after)
  | word => c.fail (.invalidBoolean word)

/-! ### Argument types -/

/-- An argument type of the caller. -/
structure CustomType where
  /-- How the type is described. -/
  description : String
  /-- Reads a value. -/
  read : Context → Cursor → Reading Value
  /-- Reading only moves forward. -/
  advances : ∀ context c value d, read context c = .ok (value, d) → c.Advances d

/-- What an argument may be. -/
inductive ArgumentType where
  /-- An integer of a width, within bounds. -/
  | integer (kind : IntegerKind) (bounds : Option (Int × Int))
  /-- A floating-point number of a format, within bounds. -/
  | floating (kind : FloatKind) (bounds : Option (Binary × Binary))
  /-- A text. -/
  | text (mode : TextMode)
  /-- `true` or `false`. -/
  | boolean
  /-- A type of the caller. -/
  | custom (type : CustomType)

namespace ArgumentType

/-- Reads a value at a place. -/
def read (type : ArgumentType) (context : Context) (c : Cursor) : Reading Value :=
  match type with
  | integer kind bounds => Reading.as (fun n => .number (.integer kind n)) (kind.domain.read bounds c)
  | floating kind bounds =>
    Reading.as (fun x => .number (.floating kind x)) (kind.domain.read bounds c)
  | text .word => Reading.as .text (readWord c)
  | text .greedy => Reading.as .text (readGreedy c)
  | text .quoted => Reading.as .text (readQuoted c)
  | boolean => Reading.as .boolean (readBoolean c)
  | custom type => type.read context c

end ArgumentType

/-! ### Reading moves forward -/

theorem NumberDomain.advances_of_read {α : Type} {domain : NumberDomain α}
    {bounds : Option (α × α)} {c d : Cursor} {value : α}
    (h : domain.read bounds c = .ok (value, d)) : c.Advances d := by
  simp only [NumberDomain.read, Cursor.fail] at h
  split at h
  · simp at h
  · split at h
    · simp at h
    · split at h
      · simp at h
      · obtain ⟨-, rfl⟩ : _ ∧ c.dropWhile domain.kind.allows = d := by simpa using h
        exact c.advances_dropWhile _

theorem advances_of_readQuoted {c d : Cursor} {s : String} (h : readQuoted c = .ok (s, d)) :
    c.Advances d := by
  simp only [readQuoted, Cursor.fail] at h
  split at h
  · split at h
    · obtain ⟨-, rfl⟩ : _ ∧ _ = d := by simpa using h
      exact c.advances_advance _
    · simp at h
    · simp at h
  · simp at h

theorem advances_of_readBoolean {c d : Cursor} {b : Bool} (h : readBoolean c = .ok (b, d)) :
    c.Advances d := by
  have key : d = c.dropWhile inWord := by
    simp only [readBoolean, Cursor.fail] at h
    split at h <;> simp_all
  exact key ▸ c.advances_dropWhile _

/-- No argument type moves backward or to another line. -/
theorem ArgumentType.advances_of_read {type : ArgumentType} {context : Context} {c d : Cursor}
    {value : Value} (h : type.read context c = .ok (value, d)) : c.Advances d := by
  cases type with
  | integer kind bounds =>
    obtain ⟨n, hn, -⟩ := Reading.exists_of_as_eq_ok h
    exact NumberDomain.advances_of_read hn
  | floating kind bounds =>
    obtain ⟨x, hx, -⟩ := Reading.exists_of_as_eq_ok h
    exact NumberDomain.advances_of_read hx
  | text mode =>
    cases mode with
    | word =>
      rw [ArgumentType.read] at h
      obtain ⟨s, hs, -⟩ := Reading.exists_of_as_eq_ok h
      obtain ⟨-, rfl⟩ : _ ∧ c.dropWhile inWord = d := by simpa [readWord] using hs
      exact c.advances_dropWhile _
    | greedy =>
      rw [ArgumentType.read] at h
      obtain ⟨s, hs, -⟩ := Reading.exists_of_as_eq_ok h
      obtain ⟨-, rfl⟩ : _ ∧ c.advance c.rest.length = d := by simpa [readGreedy] using hs
      exact c.advances_advance _
    | quoted =>
      obtain ⟨s, hs, -⟩ := Reading.exists_of_as_eq_ok h
      exact advances_of_readQuoted hs
  | boolean =>
    obtain ⟨b, hb, -⟩ := Reading.exists_of_as_eq_ok h
    exact advances_of_readBoolean hb
  | custom type => exact type.advances _ _ _ _ h

/-! ### Named arguments -/

/-- The identity of an argument: its name, and a number that tells it from the others. -/
structure ArgumentKey where
  /-- The name. -/
  name : String
  /-- The number. -/
  serial : Nat
  deriving DecidableEq, Repr

/-- A type with a name and an identity. -/
structure Argument where
  /-- The identity. -/
  key : ArgumentKey
  /-- The type. -/
  type : ArgumentType

/-- The name of an argument. -/
def Argument.name (a : Argument) : String := a.key.name

end CommandGrammar
