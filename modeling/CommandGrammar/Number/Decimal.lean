import CommandGrammar.Number.Binary

/-!
# Reading numbers

The written forms of numbers. An integer is an optional sign and digits, leading zeros among them.
A floating-point number is an optional sign and then a name (`inf`, `infinity` or `nan`, in any
case of letters) or digits with at most one point among or around them, and an optional exponent:
`e` or `E`, an optional sign, digits. It is read as the nearest number of its format.
-/

namespace CommandGrammar

/-- The value of a digit. -/
def digitValue (c : Char) : Nat := c.toNat - '0'.toNat

/-- The natural number that a text of digits writes. -/
def ofDigits (digits : List Char) : Nat :=
  digits.foldl (fun n c => 10 * n + digitValue c) 0

/-- The natural number written by a text of at least one digit. -/
def readNat? (text : List Char) : Option Nat :=
  if text ≠ [] ∧ text.all Char.isDigit then some (ofDigits text) else none

/-- Takes an optional sign off a text; `true` is the minus sign. -/
def splitSign : List Char → Bool × List Char
  | '-' :: text => (true, text)
  | '+' :: text => (false, text)
  | text => (false, text)

/-- The integer that a text writes. -/
def readInt? (text : List Char) : Option Int :=
  let (negative, digits) := splitSign text
  (readNat? digits).map (Binary.signed negative)

/-- The integer of a width that a text writes; one that does not fit is not read. -/
def IntegerKind.read? (kind : IntegerKind) (text : List Char) : Option Int :=
  (readInt? text).filter kind.holds

/-! ### Floating-point numbers -/

/-- A decimal number `digits * 10 ^ exponent`. -/
structure Decimal where
  /-- The digits, read as a natural number. -/
  digits : Nat
  /-- The power of ten of the last digit. -/
  exponent : Int
  deriving DecidableEq, Repr

/-- Reads the part behind the digits: nothing, or a mark and an integer. -/
def readExponent? : List Char → Option Int
  | [] => some 0
  | mark :: text => if mark = 'e' ∨ mark = 'E' then readInt? text else none

/-- Reads an unsigned decimal number. There must be a digit before the exponent, on either side of
the point. -/
def readDecimal? (text : List Char) : Option Decimal :=
  let whole := text.takeWhile Char.isDigit
  let (fraction, back) :=
    match text.dropWhile Char.isDigit with
    | '.' :: rest => (rest.takeWhile Char.isDigit, rest.dropWhile Char.isDigit)
    | rest => ([], rest)
  if whole.isEmpty && fraction.isEmpty then none
  else (readExponent? back).map fun exponent =>
    ⟨ofDigits (whole ++ fraction), exponent - fraction.length⟩

/-- The number of digits of a natural number. -/
def digitCount (n : Nat) : Nat := (Nat.toDigits 10 n).length

namespace FloatKind

/-- No number of a format has its leading digit at a power of ten beyond this one, on either side;
a decimal there is infinite or zero. -/
def leadingDigitLimit : Int := 400

/-- The number of a format nearest to a decimal. -/
def ofDecimal (kind : FloatKind) (negative : Bool) (d : Decimal) : Binary :=
  let leading : Int := digitCount d.digits + d.exponent
  if d.digits = 0 ∨ leading < -leadingDigitLimit then kind.zero negative
  else if leadingDigitLimit < leading then .infinite negative
  else kind.nearest negative (d.digits * Nat.pow 10 d.exponent.toNat)
    (Nat.pow 10 (-d.exponent).toNat)

/-- The number of a format that a text writes. -/
def read? (kind : FloatKind) (text : List Char) : Option Binary :=
  let (negative, body) := splitSign text
  let name := String.ofList (body.map Char.toLower)
  if name = "inf" ∨ name = "infinity" then some (.infinite negative)
  else if name = "nan" then some .nan
  else (readDecimal? body).map (kind.ofDecimal negative)

end FloatKind

end CommandGrammar
