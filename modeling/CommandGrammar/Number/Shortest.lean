import CommandGrammar.Number.Decimal

/-!
# Writing numbers

A floating-point number is written with the fewest decimal digits that read back as the same
number. `FloatKind.shortest` finds them in exact arithmetic: it takes the interval of reals that
round to the number, whose ends belong to it if the significand is even, and tries the grids of
multiples of ever smaller powers of ten, on each the two neighbours of the value. The first grid
with a neighbour in the interval wins; of two neighbours the nearer one wins, and the greater one
of two that are equally near.

A `DecimalLayout` then says how the digits are laid out.
-/

namespace CommandGrammar

/-- An interval around a value, all three as multiples of one unit. -/
structure RoundingInterval where
  /-- The lower end. -/
  low : Nat
  /-- The value. -/
  value : Nat
  /-- The upper end. -/
  high : Nat
  /-- Whether the ends belong to the interval. -/
  closed : Bool

namespace RoundingInterval

/-- Whether a multiple of the unit lies in the interval. -/
def contains (i : RoundingInterval) (n : Nat) : Bool :=
  if i.closed then decide (i.low ≤ n ∧ n ≤ i.high) else decide (i.low < n ∧ n < i.high)

/-- The neighbour of the value among the multiples of `step` that the interval holds: the nearer
one if it holds both, the greater one of two that are equally near. -/
def pick? (i : RoundingInterval) (step : Nat) : Option Nat :=
  let below := i.value / step
  match i.contains (below * step), i.contains ((below + 1) * step) with
  | true, true =>
    if i.value - below * step < (below + 1) * step - i.value then some below else some (below + 1)
  | true, false => some below
  | false, true => some (below + 1)
  | false, false => none

/-- The coarsest grid, of multiples of `10 ^ power` units, that has a neighbour of the value in the
interval, and that neighbour. The grid of the unit itself holds the value. -/
def coarsest (i : RoundingInterval) : Nat → Nat × Nat
  | 0 => (i.value, 0)
  | power + 1 =>
    match i.pick? (Nat.pow 10 (power + 1)) with
    | some n => (n, power + 1)
    | none => i.coarsest power

end RoundingInterval

namespace FloatKind

/-- The reals that round to `significand * 2 ^ exponent`, in units of `10 ^ unitExponent`. The lower
end is nearer if the number is the least one of its power of two, since the numbers below lie closer
together. -/
def interval (kind : FloatKind) (significand : Nat) (exponent : Int) : RoundingInterval × Int :=
  let narrow := significand = Nat.pow 2 (kind.precision - 1) ∧ kind.minExponent < exponent
  let quarter := exponent - 2
  let scale := Nat.pow 2 quarter.toNat * Nat.pow 5 (-quarter).toNat
  let value := 4 * significand
  let low := if narrow then value - 1 else value - 2
  (⟨low * scale, value * scale, (value + 2) * scale, significand % 2 = 0⟩, -(-quarter).toNat)

/-- The decimal with the fewest digits that reads back as `significand * 2 ^ exponent`. The search
starts at the power of ten above the value, which the interval may reach. -/
def shortest (kind : FloatKind) (significand : Nat) (exponent : Int) : Decimal :=
  let (i, unitExponent) := kind.interval significand exponent
  let (digits, power) := i.coarsest (digitCount i.value)
  ⟨digits, power + unitExponent⟩

end FloatKind

/-- Decisions on the layout of a decimal. -/
structure DecimalLayout where
  /-- The powers of ten of the leading digit that are laid out without an exponent, from the first
  up to and without the second; if there are none, all are. -/
  positional : Option (Int × Int)
  /-- Whether a whole number without an exponent is written with a zero behind the point. -/
  pointZero : Bool

namespace DecimalLayout

/-- Numbers in values and messages: never an exponent, and no point in a whole number. -/
def plain : DecimalLayout := ⟨none, false⟩

/-- Numbers in descriptions of values: an exponent below `10 ^ -4` and from `10 ^ 16` on, and a
point in every number without an exponent. -/
def described : DecimalLayout := ⟨some (-4, 16), true⟩

/-- Digits with the point at its place. -/
def layOutPositional (layout : DecimalLayout) (digits : List Char) (exponent : Int) : List Char :=
  if 0 ≤ exponent then
    digits ++ List.replicate exponent.toNat '0' ++ (if layout.pointZero then ['.', '0'] else [])
  else
    let places := (-exponent).toNat
    let padded := List.replicate (places + 1 - digits.length) '0' ++ digits
    padded.take (padded.length - places) ++ '.' :: padded.drop (padded.length - places)

/-- The leading digit, the others behind the point if there are any, and the exponent. -/
def layOutScientific (digits : List Char) (leading : Int) : List Char :=
  let mark := 'e' :: (toString leading).toList
  match digits with
  | [] => mark
  | [digit] => digit :: mark
  | digit :: others => digit :: '.' :: others ++ mark

/-- The text of a decimal that does not end in a zero. -/
def layOut (layout : DecimalLayout) (d : Decimal) : List Char :=
  let digits := Nat.toDigits 10 d.digits
  let leading := d.exponent + digits.length - 1
  match layout.positional with
  | none => layout.layOutPositional digits d.exponent
  | some (first, last) =>
    if first ≤ leading ∧ leading < last then layout.layOutPositional digits d.exponent
    else layOutScientific digits leading

end DecimalLayout

/-- The text of a floating-point number. -/
def FloatKind.write (kind : FloatKind) (layout : DecimalLayout) : Binary → List Char
  | .nan => "NaN".toList
  | .infinite negative => (if negative then "-inf" else "inf").toList
  | .finite negative significand exponent =>
    let body :=
      if significand = 0 then layout.layOutPositional ['0'] 0
      else layout.layOut (kind.shortest significand exponent)
    if negative then '-' :: body else body

end CommandGrammar
