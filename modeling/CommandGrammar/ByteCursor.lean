import CommandGrammar.Span

/-!
# A byte offset in a command line

A `ByteCursor` is a line with a byte offset, and what it does is arithmetic on that offset. Nothing in
the type keeps the offset within the line or out of the middle of a character. Text is looked up by
two offsets (`slice?`); there is none when an offset lies behind the line or inside a character, or
when the two are the wrong way round. An operation that needs such a text has no result, which stands
for a program that stops. There is no greatest offset.

Main statement: a loop over characters ends, since a next character lies before the end of the line
(`index_lt_of_peek?`).
-/

namespace CommandGrammar

/-- A line, and a byte offset in it. -/
structure ByteCursor where
  /-- The line. -/
  input : String
  /-- The offset of the next byte to read. -/
  index : Nat
  deriving DecidableEq

/-- Whether an offset lies between two characters of a line, or at an end of it: whether the byte
there, if there is one, is the first of a character. -/
def boundaryAt (line : String) (offset : Nat) : Bool := String.Pos.Raw.isValid line ⟨offset⟩

/-- The last boundary that is not behind an offset, looked for byte by byte. -/
def lastBoundary? (line : String) : Nat → Option Nat
  | 0 => if boundaryAt line 0 then some 0 else none
  | offset + 1 =>
    if boundaryAt line (offset + 1) then some (offset + 1) else lastBoundary? line offset

namespace ByteCursor

/-- The cursor before the first byte of a line. -/
def atStart (line : String) : ByteCursor := ⟨line, 0⟩

/-- The text of a span of the line, if both its ends are boundaries and in order. -/
def slice? (c : ByteCursor) (span : Span) : Option String :=
  if h : span.start ≤ span.stop ∧ boundaryAt c.input span.start = true ∧
      boundaryAt c.input span.stop = true then
    some (c.input.extract (c.input.pos ⟨span.start⟩ (String.Pos.Raw.isValid_eq_true_iff.1 h.2.1))
      (c.input.pos ⟨span.stop⟩ (String.Pos.Raw.isValid_eq_true_iff.1 h.2.2)))
  else none

/-- The text before the offset. -/
def consumed? (c : ByteCursor) : Option String := c.slice? ⟨0, c.index⟩

/-- The text behind the offset. -/
def remaining? (c : ByteCursor) : Option String := c.slice? ⟨c.index, c.input.utf8ByteSize⟩

/-- Whether the offset lies before the end of the line. -/
def readable (c : ByteCursor) : Bool := decide (c.index < c.input.utf8ByteSize)

/-- Whether the line has `count` more bytes behind the offset. -/
def fits (c : ByteCursor) (count : Nat) : Bool := decide (c.index + count ≤ c.input.utf8ByteSize)

/-- The next character, which is none at the end of the line. -/
def peek? (c : ByteCursor) : Option (Option Char) := c.remaining?.map fun text => text.toList.head?

/-- Moves behind a character. -/
def pass (c : ByteCursor) (next : Char) : ByteCursor := { c with index := c.index + next.utf8Size }

/-- The next character and the cursor behind it. -/
def read? (c : ByteCursor) : Option (Option Char × ByteCursor) :=
  c.peek?.map fun
    | none => (none, c)
    | some next => (some next, c.pass next)

/-- The cursor behind the next character. -/
def skip? (c : ByteCursor) : Option ByteCursor := c.read?.map Prod.snd

/-- Goes to the last boundary that is neither behind `target` nor behind the line. -/
def seek? (c : ByteCursor) (target : Nat) : Option ByteCursor :=
  (lastBoundary? c.input (min target c.input.utf8ByteSize)).map fun index => { c with index }

/-- Moves forward by at most `count` bytes. -/
def skipBytes? (c : ByteCursor) (count : Nat) : Option ByteCursor := c.seek? (c.index + count)

/-! ### The loop over characters -/

/-- The text of a span whose ends are boundaries in order has the bytes of the line between them. -/
theorem slice?_eq_some {c : ByteCursor} {span : Span} {text : String} :
    c.slice? span = some text ↔
      (span.start ≤ span.stop ∧ boundaryAt c.input span.start = true ∧
        boundaryAt c.input span.stop = true) ∧
      c.input.toByteArray.extract span.start span.stop = text.toByteArray := by
  unfold slice?
  split
  · rename_i hspan
    rw [Option.some_inj, ← String.toByteArray_inj]
    simp [hspan]
  · rename_i hspan
    simp [hspan]

/-- A text that is found has as many bytes as its span. -/
theorem utf8ByteSize_of_slice? {c : ByteCursor} {span : Span} {text : String}
    (h : c.slice? span = some text) : text.utf8ByteSize = span.length := by
  obtain ⟨⟨-, -, hstop⟩, hbytes⟩ := slice?_eq_some.1 h
  have hle : span.stop ≤ c.input.utf8ByteSize :=
    (String.Pos.Raw.isValid_eq_true_iff.1 hstop).le_rawEndPos
  rw [← String.size_toByteArray, ← hbytes, ByteArray.size_extract, String.size_toByteArray,
    Nat.min_eq_left hle, Span.length]

/-- A next character lies before the end of the line. -/
theorem index_lt_of_peek? {c : ByteCursor} {next : Char} (h : c.peek? = some (some next)) :
    c.index < c.input.utf8ByteSize := by
  obtain ⟨text, htext, hhead⟩ := Option.map_eq_some_iff.1 h
  have hsize := utf8ByteSize_of_slice? htext
  apply Nat.lt_of_not_le
  intro hend
  rw [Span.length, Nat.sub_eq_zero_of_le hend, String.utf8ByteSize_eq_zero_iff] at hsize
  rw [hsize] at hhead
  cases hhead

/-- The cursor behind the characters that satisfy `p`. -/
def dropWhile? (c : ByteCursor) (p : Char → Bool) : Option ByteCursor :=
  match _ : c.peek? with
  | none => none
  | some none => some c
  | some (some next) => if p next then (c.pass next).dropWhile? p else some c
termination_by c.input.utf8ByteSize - c.index
decreasing_by
  have := index_lt_of_peek? ‹_›
  have := next.utf8Size_pos
  simp only [pass]
  omega

theorem dropWhile?_of_peek?_none {c : ByteCursor} (h : c.peek? = some none) (p : Char → Bool) :
    c.dropWhile? p = some c := by
  rw [dropWhile?]
  split <;> simp_all

theorem dropWhile?_of_peek?_some {c : ByteCursor} {next : Char} (h : c.peek? = some (some next))
    (p : Char → Bool) :
    c.dropWhile? p = if p next then (c.pass next).dropWhile? p else some c := by
  rw [dropWhile?]
  split <;> simp_all

/-- Skips the characters that satisfy `p`; the span of what was skipped, and the cursor behind it. -/
def skipWhile? (c : ByteCursor) (p : Char → Bool) : Option (Span × ByteCursor) :=
  (c.dropWhile? p).map fun after => (⟨c.index, after.index⟩, after)

/-! ### Moves -/

/-- What can be done at an offset. -/
inductive Move where
  /-- Going to an offset. -/
  | seek (target : Nat)
  /-- Reading a character. -/
  | read
  /-- Skipping a character. -/
  | skip
  /-- Skipping some bytes. -/
  | skipBytes (count : Nat)
  /-- Skipping the characters that satisfy a predicate. -/
  | skipWhile (p : Char → Bool)

/-- Where a move leads. -/
def step? (c : ByteCursor) : Move → Option ByteCursor
  | .seek target => c.seek? target
  | .read => c.read?.map Prod.snd
  | .skip => c.skip?
  | .skipBytes count => c.skipBytes? count
  | .skipWhile p => (c.skipWhile? p).map Prod.snd

/-- Where some moves lead, one after the other. -/
def run? (c : ByteCursor) (moves : List Move) : Option ByteCursor := moves.foldlM step? c

end ByteCursor

end CommandGrammar
