import CommandGrammar.Yaml.Source

/-!
# Scalars

A scalar is written plainly, in single or double quotes, or as a block of lines behind a bar or a
greater sign. Plain and quoted scalars may go on over several lines. Blanks around the end of a line
are dropped, one end of a line is read as a space, and of more than one the first is dropped
(`foldGap`). The lines of a block are kept as they are, or folded in the same way.

Main statement: a reader of scalars leaves no more text than it was given, and less if it has read
something (`length_readPlain`, `length_readQuoted_lt`, `length_readBlock_le`).
-/

namespace CommandGrammar.Yaml

open Source

/-- How a scalar is written. -/
inductive Style where
  /-- As it is. -/
  | plain
  /-- In single or double quotes. -/
  | quoted
  /-- As a block of lines. -/
  | block
  deriving DecidableEq, Repr

/-- A scalar. -/
structure Scalar where
  /-- The text. -/
  text : String
  /-- How it is written. -/
  style : Style
  deriving DecidableEq, Repr

/-- Nothing at all, which is an empty plain scalar. -/
def Scalar.nothing : Scalar := ⟨"", .plain⟩

/-! ### Ends of lines in scalars -/

/-- What the ends of some lines that follow each other stand for. -/
def foldBreaks : List Char → List Char
  | ['\n'] => [' ']
  | '\n' :: others => others
  | breaks => breaks

/-- What blanks and ends of lines between two parts of a scalar stand for. -/
def foldGap (gap : Source) : List Char :=
  match (chars gap).filter isBreak with
  | [] => chars gap
  | breaks => foldBreaks breaks

/-! ### Plain scalars -/

/-- The signs of collections in brackets. -/
def flowSigns : List Char := [',', '[', ']', '\x7b', '\x7d']

/-- Reads a part of a plain scalar up to a space, or up to what ends the scalar. In brackets a colon
may not stand directly before one of their signs. -/
def readWord? (inFlow : Bool) : Source → Option (List Char × Source)
  | [] => some ([], [])
  | g :: rest =>
    if isSpace g.char ∨ (g.char = ':' ∧ endsWord rest) ∨ (inFlow ∧ g.char ∈ flowSigns) then
      some ([], g :: rest)
    else if inFlow ∧ g.char = ':' ∧ (char? rest).any (· ∈ '?' :: flowSigns) then none
    else (readWord? inFlow rest).map fun (word, rest) => (g.char :: word, rest)

theorem length_readWord {inFlow : Bool} {s rest : Source} {word : List Char}
    (h : readWord? inFlow s = some (word, rest)) : word.length + rest.length = s.length := by
  induction s generalizing word with
  | nil => simp_all [readWord?]
  | cons g s ih =>
    simp only [readWord?] at h
    split at h
    · simp_all
    · split at h
      · simp at h
      · simp only [Option.map_eq_some_iff, Prod.mk.injEq, Prod.exists] at h
        obtain ⟨word, rest, hr, rfl, rfl⟩ := h
        have := ih hr
        simp only [List.length_cons]
        omega

/-- A plain scalar as it was read. -/
structure Plain where
  /-- The text. -/
  text : List Char
  /-- Whether lines ended behind it. -/
  endsLine : Bool
  /-- What follows it and the space behind it. -/
  rest : Source

/-- Whether a line of some space begins with a tab before a column. -/
def hasEarlyTab (gap : Source) (limit : Nat) : Bool :=
  match gap with
  | [] => false
  | first :: others => others.any fun g =>
      g.char == '\t' && g.place.line != first.place.line && g.place.column < limit

/-- Reads a plain scalar. Its lines do not begin before the column `limit`, unless it stands in
brackets. -/
def readPlain? (inFlow : Bool) (limit : Nat) (s : Source) : Option Plain :=
  if isBoundary s || startsWith '#' s then some ⟨[], false, s⟩
  else
    match _h : readWord? inFlow s with
    | none => none
    | some ([], rest) => some ⟨[], false, rest⟩
    | some (c :: word, rest) =>
      let gap := takeChars isSpace rest
      let next := skipChars isSpace rest
      let endsLine := (chars gap).any isBreak
      if gap.isEmpty then some ⟨c :: word, false, rest⟩
      else if hasEarlyTab gap limit then none
      else if !inFlow && column next < limit then some ⟨c :: word, endsLine, next⟩
      else
        match readPlain? inFlow limit next with
        | none => none
        | some more =>
          if more.text.isEmpty then some ⟨c :: word, endsLine, more.rest⟩
          else some ⟨c :: word ++ foldGap gap ++ more.text, more.endsLine, more.rest⟩
termination_by s.length
decreasing_by
  have h₁ := length_readWord _h
  have h₂ := length_skipChars_le isSpace rest
  simp only [List.length_cons] at h₁
  omega

/-- A plain scalar that is not empty takes something off the text. -/
theorem length_readPlain {inFlow : Bool} {limit : Nat} {s : Source} {p : Plain}
    (h : readPlain? inFlow limit s = some p) :
    p.rest.length ≤ s.length ∧ (p.text ≠ [] → p.rest.length < s.length) := by
  fun_induction readPlain? inFlow limit s generalizing p <;>
    grind [→ length_readWord, length_skipChars_le]

/-! ### Quoted scalars -/

/-- The value of a hexadecimal digit. -/
def hexDigit? (c : Char) : Option Nat :=
  if c.isDigit then some (c.toNat - '0'.toNat)
  else if 'a' ≤ c ∧ c ≤ 'f' then some (c.toNat - 'a'.toNat + 10)
  else if 'A' ≤ c ∧ c ≤ 'F' then some (c.toNat - 'A'.toNat + 10)
  else none

/-- The character of a hexadecimal code. -/
def charOfHex? (digits : List Char) : Option Char :=
  let code? := digits.foldlM (fun n c => (hexDigit? c).map (16 * n + ·)) 0
  code?.bind fun n => if n.isValidChar then some (Char.ofNat n) else none

/-- The number of hexadecimal digits behind a character that begins a code. -/
def codeLength? : Char → Option Nat
  | 'x' => some 2
  | 'u' => some 4
  | 'U' => some 8
  | _ => none

/-- The character that a backslash and another character stand for. -/
def unescape? : Char → Option Char
  | '0' => some '\x00'
  | 'a' => some '\x07'
  | 'b' => some '\x08'
  | 't' => some '\t'
  | '\t' => some '\t'
  | 'n' => some '\n'
  | 'v' => some '\x0b'
  | 'f' => some '\x0c'
  | 'r' => some '\r'
  | 'e' => some '\x1b'
  | ' ' => some ' '
  | '"' => some '"'
  | '/' => some '/'
  | '\\' => some '\\'
  | 'N' => some '\x85'
  | '_' => some '\xa0'
  | 'L' => some '\u2028'
  | 'P' => some '\u2029'
  | _ => none

/-- Reads what follows a backslash in double quotes, other than the end of a line. -/
def readEscape? : Source → Option (Char × Source)
  | [] => none
  | g :: rest =>
    match codeLength? g.char with
    | some length =>
      if (rest.take length).length = length then
        (charOfHex? (chars (rest.take length))).map fun c => (c, rest.drop length)
      else none
    | none => (unescape? g.char).map fun c => (c, rest)

theorem length_readEscape_lt {s rest : Source} {c : Char} (h : readEscape? s = some (c, rest)) :
    rest.length < s.length := by
  cases s with
  | nil => simp [readEscape?] at h
  | cons g s =>
    simp only [readEscape?] at h
    split at h
    · split at h
      · simp only [Option.map_eq_some_iff, Prod.mk.injEq] at h
        obtain ⟨_, _, _, rfl⟩ := h
        simp only [List.length_drop, List.length_cons]
        omega
      · simp at h
    · simp only [Option.map_eq_some_iff, Prod.mk.injEq] at h
      obtain ⟨_, _, _, rfl⟩ := h
      simp

/-- Reads a scalar from behind its opening quote. A quote inside single quotes is written twice. In
double quotes a backslash takes away the meaning of a quote, begins a code, or drops the end of its
line. No document begins or ends inside. -/
def readQuoted? (quote : Char) (s : Source) : Option (List Char × Source) :=
  match s with
  | [] => none
  | g :: rest =>
    if isBoundary (g :: rest) then none
    else if isSpace g.char then
      (readQuoted? quote (skipChars isSpace rest)).map fun (text, after) =>
        (foldGap (g :: takeChars isSpace rest) ++ text, after)
    else if g.char = quote then
      if quote = '\x27' ∧ startsWith quote rest then
        (readQuoted? quote rest.tail).map fun (text, after) => (quote :: text, after)
      else some ([], rest)
    else if quote = '"' ∧ g.char = '\\' then
      if (char? rest).any isBreak then
        let gap := takeChars isSpace rest.tail
        (readQuoted? quote (skipChars isSpace rest.tail)).map fun (text, after) =>
          ((chars gap).filter isBreak ++ text, after)
      else
        match _h : readEscape? rest with
        | none => none
        | some (c, next) =>
          (readQuoted? quote next).map fun (text, after) => (c :: text, after)
    else (readQuoted? quote rest).map fun (text, after) => (g.char :: text, after)
termination_by s.length
decreasing_by
  · have := length_skipChars_le isSpace rest
    simp only [List.length_cons]
    omega
  · simp only [List.length_tail, List.length_cons]
    omega
  · have := length_skipChars_le isSpace rest.tail
    simp only [List.length_tail] at this
    simp only [List.length_cons]
    omega
  · have := length_readEscape_lt _h
    simp only [List.length_cons]
    omega
  · simp

theorem length_readQuoted_lt {quote : Char} {s rest : Source} {text : List Char}
    (h : readQuoted? quote s = some (text, rest)) : rest.length < s.length := by
  fun_induction readQuoted? quote s generalizing text <;>
    grind [→ length_readEscape_lt, length_skipChars_le, Option.map_eq_some_iff]

/-! ### Blocks -/

/-- What becomes of the ends of lines behind a block. -/
inductive Chomping where
  /-- All are dropped. -/
  | strip
  /-- The first is kept. -/
  | clip
  /-- All are kept. -/
  | keep
  deriving DecidableEq, Repr

/-- Reads a sign for the ends of lines behind a block, if there is one. -/
def readChomping (s : Source) : Option Chomping × Source :=
  match char? s with
  | some '+' => (some .keep, s.tail)
  | some '-' => (some .strip, s.tail)
  | _ => (none, s)

/-- Reads the number of columns by which the lines of a block are indented, if there is one. -/
def readIndentation? (s : Source) : Option (Option Nat × Source) :=
  match char? s with
  | some c =>
    if c = '0' then none
    else if c.isDigit then some (some (c.toNat - '0'.toNat), s.tail)
    else some (none, s)
  | none => some (none, s)

/-- Reads what follows the sign of a block on its line: a sign for the ends of lines and the number
of columns, in any order, and a comment. -/
def readHeader? (s : Source) : Option (Chomping × Option Nat × Source) :=
  let (before?, s) := readChomping s
  match readIndentation? s with
  | none => none
  | some (indentation?, s) =>
    let (chomping?, s) := if before?.isSome then (before?, s) else readChomping s
    let rest := skipComment s
    if endsLine rest then some (chomping?.getD .clip, indentation?, rest.tail) else none

theorem length_readChomping_le (s : Source) : (readChomping s).2.length ≤ s.length := by
  grind [readChomping]

theorem length_readIndentation_le {s rest : Source} {indentation? : Option Nat}
    (h : readIndentation? s = some (indentation?, rest)) : rest.length ≤ s.length := by
  grind [readIndentation?]

theorem length_readHeader_le {s rest : Source} {chomping : Chomping} {indentation? : Option Nat}
    (h : readHeader? s = some (chomping, indentation?, rest)) : rest.length ≤ s.length := by
  grind [readHeader?, length_readChomping_le, → length_readIndentation_le, length_skipComment_le]

/-- Passes the indentation of a line and the empty lines before it. Gives the ends of those lines,
and the largest column that was reached. A line is indented as far as `indent`, if that is known. -/
def skipIndentation? (indent : Option Nat) (reached : Nat) :
    Source → Option (Nat × List Char × Source)
  | [] => some (reached, [], [])
  | g :: rest =>
    let isBefore := indent.all (g.place.column < ·)
    if isBefore && g.char == ' ' then skipIndentation? indent reached rest
    else if isBefore && g.char == '\t' then none
    else
      let reached := max reached g.place.column
      if isBreak g.char then
        (skipIndentation? indent reached rest).map fun (reached, breaks, rest) =>
          (reached, g.char :: breaks, rest)
      else some (reached, [], g :: rest)

theorem length_skipIndentation_le {indent : Option Nat} {s rest : Source} {reached r : Nat}
    {breaks : List Char} (h : skipIndentation? indent reached s = some (r, breaks, rest)) :
    rest.length ≤ s.length := by
  induction s generalizing reached r breaks with
  | nil => simp_all [skipIndentation?]
  | cons g s ih =>
    simp only [skipIndentation?] at h
    split at h
    · have := ih h
      simp only [List.length_cons]
      omega
    · split at h
      · simp at h
      · split at h
        · simp only [Option.map_eq_some_iff, Prod.mk.injEq, Prod.exists] at h
          obtain ⟨_, _, _, hr, -, -, rfl⟩ := h
          have := ih hr
          simp only [List.length_cons]
          omega
        · simp_all

/-- The ends of lines between two lines of a block: that of the first one, and those of the empty
lines between them. In a folded block they are folded between lines that begin with no blank. -/
def joinLines (isFolded : Bool) (breaks others : List Char) : List Char :=
  if isFolded && breaks == ['\n'] then (if others.isEmpty then [' '] else others)
  else breaks ++ others

/-- What is kept of the ends of lines behind a block. -/
def Chomping.apply : Chomping → List Char → List Char → List Char
  | .strip, _, _ => []
  | .clip, breaks, _ => breaks
  | .keep, breaks, others => breaks ++ others

/-- Reads the lines of a block that are indented by `indent` columns. The end of the line before and
those of empty lines behind it are not yet taken over. -/
def readLines? (isFolded : Bool) (chomping : Chomping) (indent : Nat) (breaks others : List Char)
    (wasBlank : Bool) (s : Source) : Option (List Char × Source) :=
  match s with
  | [] => some (chomping.apply breaks others, [])
  | g :: rest =>
    if g.place.column = indent then
      let line := g :: takeChars (! isBreak ·) rest
      let after := skipChars (! isBreak ·) rest
      match _h : skipIndentation? (some indent) 0 after.tail with
      | none => none
      | some (_, empty, next) =>
        let joined := joinLines (isFolded && !wasBlank && !isBlank g.char) breaks others
        (readLines? isFolded chomping indent (chars (after.take 1)) empty (isBlank g.char) next).map
          fun (text, rest) => (joined ++ chars line ++ text, rest)
    else some (chomping.apply breaks others, g :: rest)
termination_by s.length
decreasing_by
  have h₁ := length_skipIndentation_le _h
  have h₂ : after.length ≤ rest.length := length_skipChars_le (! isBreak ·) rest
  simp only [List.length_tail] at h₁
  simp only [List.length_cons]
  omega

theorem length_readLines_le {isFolded : Bool} {chomping : Chomping} {indent : Nat}
    {breaks others : List Char} {wasBlank : Bool} {s rest : Source} {text : List Char}
    (h : readLines? isFolded chomping indent breaks others wasBlank s = some (text, rest)) :
    rest.length ≤ s.length := by
  fun_induction readLines? isFolded chomping indent breaks others wasBlank s generalizing text <;>
    grind [→ length_skipIndentation_le, length_skipChars_le, Option.map_eq_some_iff]

/-- Reads a block from behind its sign. Its lines begin in the column that the sign tells, counted
from the one before `limit`, or in that of its first line, which is `limit` at least and not the
first one. -/
def readBlock? (isFolded : Bool) (limit : Nat) (s : Source) : Option (List Char × Source) :=
  match readHeader? s with
  | none => none
  | some (chomping, indentation?, s) =>
    let indent? := indentation?.map (limit - 1 + ·)
    match skipIndentation? indent? 0 s with
    | none => none
    | some (reached, empty, s) =>
      readLines? isFolded chomping (indent?.getD (max reached (max limit 1))) [] empty false s

theorem length_readBlock_le {isFolded : Bool} {limit : Nat} {s rest : Source} {text : List Char}
    (h : readBlock? isFolded limit s = some (text, rest)) : rest.length ≤ s.length := by
  grind [readBlock?, → length_readHeader_le, → length_skipIndentation_le, → length_readLines_le]

end CommandGrammar.Yaml
