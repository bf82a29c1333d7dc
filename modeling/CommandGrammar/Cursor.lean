import CommandGrammar.Span
import CommandGrammar.Text.Utf8

/-!
# A place in a command line

A `Cursor` is a place between two characters of a line: the text before it and the text behind it.
Offsets are counted in bytes, but a cursor cannot stand inside a character, whatever offset it was
sent to: `seek` goes to the last place that is not behind the offset. A line with a bare byte offset,
and the arithmetic on it, is a `ByteCursor`; its operations are those of a `Cursor`, laid out as bytes
(`Cursor.bytes`).

Main statements: no operation changes the line (`seek_line`, `advance_line`, `skipBytes_line`,
`dropWhile_line`), and all but `seek` only move forward (`Advances`). Parts of a line are one
separator apart (`gap_of_nextPart?`), and the text of the span between two places is what was read
between them (`slice?_spanTo`).
-/

namespace CommandGrammar

/-- The character that separates the parts of a command line. -/
def separator : Char := ' '

/-- A place in a line, between the text already read and the text still to read. -/
structure Cursor where
  /-- The text before the place. -/
  consumed : List Char
  /-- The text behind the place. -/
  rest : List Char
  deriving DecidableEq

namespace Cursor

/-- The place before the first character of a line. -/
def atStart (line : String) : Cursor := ⟨[], line.toList⟩

/-- The whole line. -/
def line (c : Cursor) : List Char := c.consumed ++ c.rest

/-- The byte offset of the place. -/
def index (c : Cursor) : Nat := byteLength c.consumed

/-- Whether there is text left to read. -/
def readable (c : Cursor) : Bool := !c.rest.isEmpty

/-- Whether the line has `count` more bytes behind the place. -/
def fits (c : Cursor) (count : Nat) : Bool := decide (c.index + count ≤ byteLength c.line)

/-- The next character. -/
def peek (c : Cursor) : Option Char := c.rest.head?

/-- The same line from behind the first `count` characters still to read. -/
def advance (c : Cursor) (count : Nat) : Cursor :=
  ⟨c.consumed ++ c.rest.take count, c.rest.drop count⟩

/-- The next character and the place behind it. -/
def read? (c : Cursor) : Option (Char × Cursor) := c.peek.map fun next => (next, c.advance 1)

/-- The last place that is not behind the byte offset `target`. -/
def seek (c : Cursor) (target : Nat) : Cursor :=
  ⟨takeBytes target c.line, dropBytes target c.line⟩

/-- Moves forward by at most `count` bytes. -/
def skipBytes (c : Cursor) (count : Nat) : Cursor :=
  ⟨c.consumed ++ takeBytes count c.rest, dropBytes count c.rest⟩

/-- The place behind the characters that satisfy `p`. -/
def dropWhile (c : Cursor) (p : Char → Bool) : Cursor :=
  ⟨c.consumed ++ c.rest.takeWhile p, c.rest.dropWhile p⟩

/-- The span from one place to a later one. -/
def spanTo (c d : Cursor) : Span := ⟨c.index, d.index⟩

/-- The text of a span of the line, if both its ends are places of the line and in order. -/
def slice? (c : Cursor) (span : Span) : Option (List Char) :=
  let front := takeBytes span.start c.line
  let middle := takeBytes (span.stop - span.start) (dropBytes span.start c.line)
  if span.start ≤ span.stop ∧ byteLength front = span.start ∧
      byteLength middle = span.length then
    some middle
  else none

/-- The token that starts here: the text up to the next separator. -/
def token (c : Cursor) : List Char := c.rest.takeWhile (· != separator)

/-- The place at which the next part of the line begins: here at the end of the line, and otherwise
behind a separator, which must be the next character. -/
def nextPart? (c : Cursor) : Option Cursor :=
  match c.peek with
  | none => some c
  | some next => if next = separator then some (c.advance 1) else none

/-! ### The line never changes -/

@[simp] theorem seek_line (c : Cursor) (target : Nat) : (c.seek target).line = c.line := by
  simp [line, seek]

@[simp] theorem advance_line (c : Cursor) (count : Nat) : (c.advance count).line = c.line := by
  simp [line, advance]

@[simp] theorem skipBytes_line (c : Cursor) (count : Nat) : (c.skipBytes count).line = c.line := by
  simp [line, skipBytes]

@[simp] theorem dropWhile_line (c : Cursor) (p : Char → Bool) : (c.dropWhile p).line = c.line := by
  simp [line, dropWhile]

/-- The offset of a place never lies behind the line. -/
theorem index_le (c : Cursor) : c.index ≤ byteLength c.line := by
  simp [index, line]

/-! ### Moving forward -/

/-- `d` is a place of the same line as `c` and not before it: some text of what `c` has still to
read has been read at `d`. -/
def Advances (c d : Cursor) : Prop :=
  ∃ read, c.rest = read ++ d.rest ∧ d.consumed = c.consumed ++ read

theorem Advances.refl (c : Cursor) : c.Advances c := ⟨[], by simp⟩

theorem Advances.trans {c d e : Cursor} (h : c.Advances d) (h' : d.Advances e) :
    c.Advances e := by
  obtain ⟨s, hs, hs'⟩ := h
  obtain ⟨t, ht, ht'⟩ := h'
  exact ⟨s ++ t, by simp [hs, ht], by simp [ht', hs']⟩

theorem Advances.line_eq {c d : Cursor} (h : c.Advances d) : d.line = c.line := by
  obtain ⟨s, hs, hs'⟩ := h
  simp [line, hs, hs']

theorem Advances.length_rest_le {c d : Cursor} (h : c.Advances d) :
    d.rest.length ≤ c.rest.length := by
  obtain ⟨s, hs, -⟩ := h
  simp [hs]

theorem advances_advance (c : Cursor) (count : Nat) : c.Advances (c.advance count) :=
  ⟨c.rest.take count, by simp [advance]⟩

/-- Moving over some text leaves what follows it. -/
theorem advance_length {c : Cursor} {read rest : List Char} (h : c.rest = read ++ rest) :
    c.advance read.length = ⟨c.consumed ++ read, rest⟩ := by
  simp [advance, h]

theorem advances_skipBytes (c : Cursor) (count : Nat) : c.Advances (c.skipBytes count) :=
  ⟨takeBytes count c.rest, by simp [skipBytes]⟩

theorem advances_dropWhile (c : Cursor) (p : Char → Bool) : c.Advances (c.dropWhile p) :=
  ⟨c.rest.takeWhile p, by simp [dropWhile]⟩

theorem Advances.index_le {c d : Cursor} (h : c.Advances d) : c.index ≤ d.index := by
  obtain ⟨read, -, hd⟩ := h
  rw [index, index, hd, byteLength_append]
  exact Nat.le_add_right _ _

/-- Between two places there is exactly one separator, or both are the end of the line. -/
def Gap (c d : Cursor) : Prop :=
  (c.rest = separator :: d.rest ∧ d.consumed = c.consumed ++ [separator]) ∨ (c.rest = [] ∧ d = c)

theorem gap_of_nextPart? {c d : Cursor} (h : c.nextPart? = some d) : c.Gap d := by
  obtain ⟨consumed, rest⟩ := c
  cases rest with
  | nil =>
    obtain rfl := Option.some.inj h
    exact .inr ⟨rfl, rfl⟩
  | cons next rest =>
    simp only [nextPart?, peek, List.head?_cons] at h
    split at h
    · rename_i e
      obtain rfl := Option.some.inj h
      exact .inl ⟨by simp [e, advance], by simp [e, advance]⟩
    · cases h

theorem Gap.advances {c d : Cursor} (h : c.Gap d) : c.Advances d := by
  rcases h with ⟨hr, hc⟩ | ⟨-, rfl⟩
  · exact ⟨[separator], hr, hc⟩
  · exact .refl d

/-- Behind a part there is either nothing left to read, or less than before. -/
theorem rest_of_nextPart? {c d : Cursor} (h : c.nextPart? = some d) :
    d.rest = [] ∨ d.rest.length < c.rest.length := by
  rcases gap_of_nextPart? h with ⟨hr, -⟩ | ⟨hr, rfl⟩
  · refine .inr ?_
    rw [hr, List.length_cons]
    exact Nat.lt_succ_self _
  · exact .inl hr

/-! ### What stands between two places -/

/-- A text of the line is found by the bytes in front of it and those up to its end. -/
theorem slice?_eq_some_iff {c : Cursor} {span : Span} {text : List Char} :
    c.slice? span = some text ↔ ∃ front back, c.line = front ++ text ++ back ∧
      byteLength front = span.start ∧ byteLength (front ++ text) = span.stop := by
  constructor
  · intro h
    simp only [slice?] at h
    split at h
    · rename_i hspan
      obtain ⟨hle, hstart, hlength⟩ := hspan
      obtain rfl := Option.some.inj h
      refine ⟨takeBytes span.start c.line,
        dropBytes (span.stop - span.start) (dropBytes span.start c.line), ?_, hstart, ?_⟩
      · rw [List.append_assoc, takeBytes_append_dropBytes, takeBytes_append_dropBytes]
      · rw [byteLength_append, hstart, hlength, Span.length, Nat.add_sub_cancel' hle]
    · cases h
  · rintro ⟨front, back, hline, hstart, hstop⟩
    rw [byteLength_append] at hstop
    have hlength : span.stop - span.start = byteLength text := by omega
    rw [List.append_assoc] at hline
    have hfront : takeBytes span.start c.line = front := by
      rw [hline, ← hstart, takeBytes_byteLength_append]
    have htext : takeBytes (span.stop - span.start) (dropBytes span.start c.line) = text := by
      rw [hline, ← hstart, dropBytes_byteLength_append, hstart, hlength,
        takeBytes_byteLength_append]
    simp only [slice?, hfront, htext]
    rw [if_pos ⟨by omega, hstart, hlength.symm⟩]

/-- The text between two places is what was read between them. -/
theorem slice?_spanTo {c d : Cursor} {read : List Char} (h : c.rest = read ++ d.rest)
    (h' : d.consumed = c.consumed ++ read) : c.slice? (c.spanTo d) = some read := by
  refine slice?_eq_some_iff.2 ⟨c.consumed, d.rest, ?_, rfl, ?_⟩
  · rw [line, h, List.append_assoc]
  · rw [← h']
    rfl

/-- Skipping the bytes of the next token skips that token. -/
theorem skipBytes_token (c : Cursor) :
    c.rest = c.token ++ (c.skipBytes (byteLength c.token)).rest ∧
      (c.skipBytes (byteLength c.token)).consumed = c.consumed ++ c.token := by
  have hrest : c.rest = c.token ++ c.rest.dropWhile (· != separator) :=
    List.takeWhile_append_dropWhile.symm
  have htake := takeBytes_byteLength_append c.token (c.rest.dropWhile (· != separator))
  rw [← hrest] at htake
  refine ⟨?_, congrArg (c.consumed ++ ·) htake⟩
  have hcut := takeBytes_append_dropBytes (byteLength c.token) c.rest
  rw [htake] at hcut
  exact hcut.symm

end Cursor

end CommandGrammar
