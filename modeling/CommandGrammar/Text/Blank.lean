/-!
# Blank characters

A word ends at a blank: a character with the Unicode property `White_Space`. The set is larger than
the four characters that `Char.isWhitespace` knows, so it has a table of its own.
-/

namespace CommandGrammar

/-- The code points with the property `White_Space`, as inclusive ranges in increasing order. -/
def blankRanges : List (Nat × Nat) :=
  [(0x09, 0x0D), (0x20, 0x20), (0x85, 0x85), (0xA0, 0xA0), (0x1680, 0x1680), (0x2000, 0x200A),
    (0x2028, 0x2029), (0x202F, 0x202F), (0x205F, 0x205F), (0x3000, 0x3000)]

/-- Whether a character is blank. -/
def isBlank (c : Char) : Bool :=
  blankRanges.any fun range => range.1 ≤ c.toNat && c.toNat ≤ range.2

end CommandGrammar
