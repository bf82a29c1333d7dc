/-!
# Kinds of numbers

A numeric argument reads one of six kinds of numbers: four widths of signed integers in two's
complement, and two binary floating-point formats. This module holds the kinds, their limits, and
the characters that a number of each kind may be written with.
-/

namespace CommandGrammar

/-- The widths of signed integers. -/
inductive IntegerKind where
  /-- Eight bits. -/
  | byte
  /-- Sixteen bits. -/
  | short
  /-- Thirty-two bits. -/
  | int
  /-- Sixty-four bits. -/
  | long
  deriving DecidableEq, Repr

namespace IntegerKind

/-- The number of bits, the sign among them. -/
def bits : IntegerKind → Nat
  | byte => 8
  | short => 16
  | int => 32
  | long => 64

/-- The least integer of a width. -/
def least (kind : IntegerKind) : Int := -(Nat.pow 2 (kind.bits - 1) : Nat)

/-- The greatest integer of a width. -/
def greatest (kind : IntegerKind) : Int := (Nat.pow 2 (kind.bits - 1) : Nat) - 1

/-- Whether an integer has a form of this width. -/
def holds (kind : IntegerKind) (value : Int) : Bool :=
  decide (kind.least ≤ value ∧ value ≤ kind.greatest)

end IntegerKind

/-- The binary floating-point formats. -/
inductive FloatKind where
  /-- Thirty-two bits. -/
  | single
  /-- Sixty-four bits. -/
  | double
  deriving DecidableEq, Repr

namespace FloatKind

/-- The number of significant bits. -/
def precision : FloatKind → Nat
  | single => 24
  | double => 53

/-- The least exponent of the last significant bit. -/
def minExponent : FloatKind → Int
  | single => -149
  | double => -1074

/-- The greatest exponent of the last significant bit. -/
def maxExponent : FloatKind → Int
  | single => 104
  | double => 971

end FloatKind

/-- The kinds of numbers. -/
inductive NumberKind where
  /-- Signed integers of a width. -/
  | integer (kind : IntegerKind)
  /-- Floating-point numbers of a format. -/
  | floating (kind : FloatKind)
  deriving DecidableEq, Repr

namespace NumberKind

/-- The name of a kind in messages. -/
def name : NumberKind → String
  | integer .byte => "byte"
  | integer .short => "short"
  | integer .int => "integer"
  | integer .long => "long"
  | floating .single => "float"
  | floating .double => "double"

/-- The tag of a kind in data. -/
def tag : NumberKind → String
  | integer .int => "int"
  | kind => kind.name

/-- The kind of a tag. -/
def ofTag? : String → Option NumberKind
  | "byte" => some (integer .byte)
  | "short" => some (integer .short)
  | "int" => some (integer .int)
  | "long" => some (integer .long)
  | "float" => some (floating .single)
  | "double" => some (floating .double)
  | _ => none

/-- Whether the kind is a floating-point format. -/
def isFloating : NumberKind → Bool
  | integer _ => false
  | floating _ => true

/-- Whether a character may stand in a number of this kind: digits and signs always, and a point
or an exponent mark only in a floating-point number. -/
def allows (kind : NumberKind) (c : Char) : Bool :=
  c.isDigit || c == '+' || c == '-' || (kind.isFloating && (c == '.' || c == 'e' || c == 'E'))

end NumberKind

end CommandGrammar
