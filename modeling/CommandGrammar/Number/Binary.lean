import CommandGrammar.Number.Kind

/-!
# Binary floating-point numbers

A `Binary` is a floating-point number taken as the exact value that it stands for: a sign, a
significand and a power of two, or one of the special values. Every operation here is exact integer
arithmetic, so nothing depends on the arithmetic of a machine.

`FloatKind.nearest` rounds a quotient of two natural numbers to the nearest number of a format; a
quotient half-way between two numbers goes to the one with the even significand, and one beyond the
greatest number goes to infinity.
-/

namespace CommandGrammar

/-- A floating-point number. -/
inductive Binary where
  /-- Not a number. -/
  | nan
  /-- Infinity with a sign. -/
  | infinite (negative : Bool)
  /-- The number `significand * 2 ^ exponent` with a sign. -/
  | finite (negative : Bool) (significand : Nat) (exponent : Int)
  deriving DecidableEq, Repr

namespace Binary

/-- The number `n` with the sign `negative`. -/
def signed (negative : Bool) (n : Nat) : Int := if negative then -n else n

/-- Whether one number is less than another. Nothing is less than `nan` and `nan` is less than
nothing; the two zeros are equal. -/
def lt : Binary → Binary → Bool
  | nan, _ => false
  | _, nan => false
  | infinite a, infinite b => a && !b
  | infinite a, finite .. => a
  | finite .., infinite b => !b
  | finite a m p, finite b n q =>
    let unit := min p q
    decide (signed a (m * Nat.pow 2 (p - unit).toNat) < signed b (n * Nat.pow 2 (q - unit).toNat))

end Binary

/-- The quotient `num / den`, rounded to the nearest natural number; a half goes to the even
neighbour. -/
def divNearestEven (num den : Nat) : Nat :=
  let floor := num / den
  let twice := 2 * (num % den)
  if twice < den ∨ (twice = den ∧ floor % 2 = 0) then floor else floor + 1

/-- The numerator and the denominator of `num / den / 2 ^ exponent`. -/
def divPowTwo (num den : Nat) (exponent : Int) : Nat × Nat :=
  (num * Nat.pow 2 (-exponent).toNat, den * Nat.pow 2 exponent.toNat)

/-- The greatest `e` with `2 ^ e ≤ num / den`, for positive `num` and `den`. -/
def floorLogTwo (num den : Nat) : Int :=
  let guess : Int := (num.log2 : Int) - (den.log2 : Int)
  let (a, b) := divPowTwo num den guess
  if b ≤ a then guess else guess - 1

namespace FloatKind

/-- The number of a format nearest to the positive quotient `num / den`, with a sign. -/
def nearest (kind : FloatKind) (negative : Bool) (num den : Nat) : Binary :=
  let exponent := max kind.minExponent (floorLogTwo num den - (kind.precision - 1 : Nat))
  let (a, b) := divPowTwo num den exponent
  let significand := divNearestEven a b
  let (significand, exponent) :=
    if significand = Nat.pow 2 kind.precision then (Nat.pow 2 (kind.precision - 1), exponent + 1)
    else (significand, exponent)
  if kind.maxExponent < exponent then .infinite negative
  else .finite negative significand exponent

/-- Zero with a sign. -/
def zero (kind : FloatKind) (negative : Bool) : Binary := .finite negative 0 kind.minExponent

/-- The greatest finite number of a format. -/
def greatest (kind : FloatKind) : Binary :=
  .finite false (Nat.pow 2 kind.precision - 1) kind.maxExponent

/-- The least finite number of a format. -/
def least (kind : FloatKind) : Binary :=
  .finite true (Nat.pow 2 kind.precision - 1) kind.maxExponent

end FloatKind

end CommandGrammar
