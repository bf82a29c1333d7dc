/-!
# The text of a settings file

Settings files are written in YAML, in which the layout matters: where a line ends and in which
column something stands. A text is read here as a list of characters with their places.

A line ends at a line feed, at a carriage return, at both together, at a next line character, or at
a line or paragraph separator. The separators stand for themselves in scalars; every other end of a
line is one line feed here. A text may hold control characters neither in scalars nor in comments. A
byte order mark in front of it is passed, but it takes up a column of the first line.
-/

namespace CommandGrammar.Yaml

/-! ### Characters -/

/-- Whether a character may stand in a text. -/
def isAllowed (c : Char) : Bool :=
  c == '\t' || c == '\n' || c == '\r' || (' ' ≤ c && c ≤ '~') || c == '\x85' ||
    ('\xa0' ≤ c && c ≤ '\ufffd') || Char.ofNat 0x10000 ≤ c

/-- Whether a line ends at a character. -/
def isBreak (c : Char) : Bool :=
  c == '\n' || c == '\r' || c == '\x85' || c == '\u2028' || c == '\u2029'

/-- Whether a character may stand between the parts of a line. -/
def isBlank (c : Char) : Bool := c == ' ' || c == '\t'

/-- Whether a character may stand between the parts of a text. -/
def isSpace (c : Char) : Bool := isBlank c || isBreak c

/-- Whether a character may stand in the name of an anchor. -/
def isNameChar (c : Char) : Bool := c.isAlphanum || c == '_' || c == '-'

/-! ### Places -/

/-- A place in a text. -/
structure Place where
  /-- The number of characters before it. -/
  index : Nat := 0
  /-- The number of lines before it. -/
  line : Nat := 0
  /-- The number of characters before it on its line. -/
  column : Nat := 0
  deriving DecidableEq, Repr

namespace Place

/-- The place behind a character that does not end the line. -/
def next (p : Place) : Place := ⟨p.index + 1, p.line, p.column + 1⟩

/-- The place behind the end of a line of some characters. -/
def nextLine (p : Place) (length : Nat) : Place := ⟨p.index + length, p.line + 1, 0⟩

end Place

/-- A character at its place. -/
structure Glyph where
  /-- The character. -/
  char : Char
  /-- The place before it. -/
  place : Place
  deriving DecidableEq, Repr

/-- A text from some place on. -/
abbrev Source := List Glyph

namespace Source

/-- Finds the places of the characters of a text that begins at a place. -/
def locate (p : Place) : List Char → Source
  | [] => []
  | '\r' :: '\n' :: rest => ⟨'\n', p⟩ :: locate (p.nextLine 2) rest
  | c :: rest =>
    if c = '\r' ∨ c = '\x85' then ⟨'\n', p⟩ :: locate (p.nextLine 1) rest
    else if isBreak c then ⟨c, p⟩ :: locate (p.nextLine 1) rest
    else ⟨c, p⟩ :: locate p.next rest

/-- The characters of a text with their places, unless it holds one that is not allowed. A byte order
mark in front is not read, but it has a place. -/
def ofString? (text : String) : Option Source :=
  if text.toList.all isAllowed then
    match text.toList with
    | '\ufeff' :: rest => some (locate (Place.next {}) rest)
    | rest => some (locate {} rest)
  else none

/-- The characters alone. -/
def chars (s : Source) : List Char := s.map Glyph.char

/-- The character at a place. -/
def char? (s : Source) : Option Char := s.head?.map Glyph.char

/-- Whether a text goes on with a character. -/
def startsWith (c : Char) (s : Source) : Bool := char? s == some c

/-- Whether a text goes on with a blank or with a new line, or ends. -/
def endsWord (s : Source) : Bool := (char? s).all isSpace

/-- Whether a text goes on with a new line, or ends. -/
def endsLine (s : Source) : Bool := (char? s).all isBreak

/-- The column of the next character. -/
def column (s : Source) : Nat := (s.head?.map fun g => g.place.column).getD 0

/-- The text behind characters of some kind. -/
def skipChars (kind : Char → Bool) (s : Source) : Source := s.dropWhile fun g => kind g.char

/-- The characters of some kind that a text goes on with. -/
def takeChars (kind : Char → Bool) (s : Source) : Source := s.takeWhile fun g => kind g.char

/-- The text behind blanks and a comment. -/
def skipComment (s : Source) : Source :=
  let rest := skipChars isBlank s
  if startsWith '#' rest then skipChars (! isBreak ·) rest else rest

/-- Whether a line begins with three times a character, as a word of its own. -/
def isTriple (c : Char) (s : Source) : Bool :=
  column s == 0 && chars (s.take 3) == [c, c, c] && endsWord (s.drop 3)

/-- Whether a document begins or ends here. -/
def isBoundary (s : Source) : Bool := isTriple '-' s || isTriple '.' s

theorem length_skipChars_le (kind : Char → Bool) (s : Source) :
    (skipChars kind s).length ≤ s.length :=
  (List.dropWhile_suffix _).length_le

theorem length_skipComment_le (s : Source) : (skipComment s).length ≤ s.length := by
  grind [skipComment, length_skipChars_le]

end Source

end CommandGrammar.Yaml
