import CommandGrammar.Number.Shortest

/-!
# Numbers

A `Number` is a value of one of the number kinds together with its kind. A `NumberDomain` gathers
what a numeric argument has to know of the numbers of one kind: how to read them, how to compare
them, and the least and the greatest of them.
-/

namespace CommandGrammar

/-- A number with its kind. -/
inductive Number where
  /-- An integer of a width. -/
  | integer (kind : IntegerKind) (value : Int)
  /-- A floating-point number of a format. -/
  | floating (kind : FloatKind) (value : Binary)
  deriving DecidableEq, Repr

namespace Number

/-- The kind of a number. -/
def kind : Number → NumberKind
  | integer kind _ => .integer kind
  | floating kind _ => .floating kind

/-- A number in a layout; integers are written in decimal digits in every layout. -/
def write (layout : DecimalLayout) : Number → String
  | integer _ value => toString value
  | floating kind value => String.ofList (kind.write layout value)

/-- The text of a number as a value. -/
def text (n : Number) : String := n.write .plain

end Number

/-- What a numeric argument has to know of the numbers of one kind. -/
structure NumberDomain (α : Type) where
  /-- The kind. -/
  kind : NumberKind
  /-- The number that a text writes. -/
  read? : List Char → Option α
  /-- Whether one number is less than another. -/
  lt : α → α → Bool
  /-- The least number. -/
  least : α
  /-- The greatest number. -/
  greatest : α
  /-- The number with its kind. -/
  toNumber : α → Number

/-- The integers of a width. -/
def IntegerKind.domain (kind : IntegerKind) : NumberDomain Int where
  kind := .integer kind
  read? := kind.read?
  lt a b := decide (a < b)
  least := kind.least
  greatest := kind.greatest
  toNumber := .integer kind

/-- The floating-point numbers of a format. -/
def FloatKind.domain (kind : FloatKind) : NumberDomain Binary where
  kind := .floating kind
  read? := kind.read?
  lt := Binary.lt
  least := kind.least
  greatest := kind.greatest
  toNumber := .floating kind

/-- The number of a kind that a text writes. -/
def NumberKind.read? : NumberKind → List Char → Option Number
  | .integer kind, text => (kind.read? text).map (.integer kind)
  | .floating kind, text => (kind.read? text).map (.floating kind)

end CommandGrammar
