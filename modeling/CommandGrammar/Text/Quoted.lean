/-!
# Quoted texts

A quoted text stands between two quotes. Inside, a quote or a backslash is written with a backslash
before it, and no other character may follow a backslash. `write` gives the quoted form of a text;
`scanBody` reads what stands behind an opening quote and says how many characters it read.

Main statement: reading what was written gives the text back and leaves what follows it
(`scanBody_writeBody`).
-/

namespace CommandGrammar.Quoted

/-- The character at both ends of a quoted text. -/
def quote : Char := '"'

/-- The character before a quote or a backslash inside a quoted text. -/
def escape : Char := '\\'

/-- Whether a character is written with a backslash inside a quoted text. -/
def isEscaped (c : Char) : Bool := c == quote || c == escape

/-- The form of a text between its quotes, with the closing one. -/
def writeBody : List Char → List Char
  | [] => [quote]
  | c :: s => if isEscaped c then escape :: c :: writeBody s else c :: writeBody s

/-- The quoted form of a text. -/
def write (s : List Char) : List Char := quote :: writeBody s

/-- What is wrong with a quoted text. -/
inductive Fault where
  /-- There is no closing quote. -/
  | unclosed
  /-- A backslash stands before this character. -/
  | badEscape (c : Char)
  deriving DecidableEq, Repr

/-- What a scan found, and how many characters it read to find it. -/
structure Scan where
  /-- The text between the quotes, or what is wrong with it. -/
  outcome : Except Fault (List Char)
  /-- The number of characters read. -/
  length : Nat

/-- The scan of a text whose first `count` characters stand for `c`. -/
def Scan.cons (c : Char) (count : Nat) (scan : Scan) : Scan :=
  ⟨scan.outcome.map (c :: ·), count + scan.length⟩

/-- Reads a quoted text from behind its opening quote to behind its closing one. A fault lies before
the character that cannot be escaped, or at the end of an unclosed text. -/
def scanBody : List Char → Scan
  | [] => ⟨.error .unclosed, 0⟩
  | c :: s =>
    if c = quote then ⟨.ok [], 1⟩
    else if c = escape then
      match s with
      | [] => ⟨.error .unclosed, 1⟩
      | d :: s => if isEscaped d then (scanBody s).cons d 2 else ⟨.error (.badEscape d), 1⟩
    else (scanBody s).cons c 1

theorem scanBody_quote (s : List Char) : scanBody (quote :: s) = ⟨.ok [], 1⟩ := by
  cases s <;> simp [scanBody]

theorem scanBody_escaped {c : Char} (h : isEscaped c) (s : List Char) :
    scanBody (escape :: c :: s) = (scanBody s).cons c 2 := by
  have : escape ≠ quote := by decide
  simp [scanBody, h, this]

theorem scanBody_plain {c : Char} (h : isEscaped c = false) (s : List Char) :
    scanBody (c :: s) = (scanBody s).cons c 1 := by
  simp only [isEscaped, Bool.or_eq_false_iff, beq_eq_false_iff_ne] at h
  cases s <;> simp [scanBody, h.1, h.2]

/-- Reading what was written gives the text back and leaves what follows it. -/
theorem scanBody_writeBody (s t : List Char) :
    scanBody (writeBody s ++ t) = ⟨.ok s, (writeBody s).length⟩ := by
  induction s with
  | nil => exact scanBody_quote t
  | cons c s ih =>
    by_cases h : isEscaped c
    · rw [writeBody, if_pos h, List.cons_append, List.cons_append, scanBody_escaped h, ih]
      simp [Scan.cons, Except.map]
      omega
    · rw [writeBody, if_neg h, List.cons_append, scanBody_plain (by simpa using h), ih]
      simp [Scan.cons, Except.map]
      omega

end CommandGrammar.Quoted
