import CommandGrammar.Yaml.Scalar

/-!
# Tokens

A text in YAML is a row of tokens with blanks, ends of lines and comments between them: scalars,
signs that begin, divide and end collections, and names and tags that stand before a value. The
tokens that begin and end a collection without brackets are not written; they follow from the
columns of the others.

Main statement: what is read as a token is taken off the text (`Lexeme.length_rest_lt`).
-/

namespace CommandGrammar.Yaml

open Source

/-- A token. -/
inductive Token where
  /-- The line that tells the version. -/
  | version
  /-- The beginning of a document. -/
  | documentStart
  /-- The end of a document. -/
  | documentEnd
  /-- The beginning of a sequence without brackets. -/
  | blockSequence
  /-- The beginning of a map without brackets. -/
  | blockMap
  /-- The end of a sequence or map without brackets. -/
  | blockEnd
  /-- The beginning of a sequence in brackets. -/
  | flowSequence
  /-- The end of a sequence in brackets. -/
  | flowSequenceEnd
  /-- The beginning of a map in braces. -/
  | flowMap
  /-- The end of a map in braces. -/
  | flowMapEnd
  /-- The dash before an item of a sequence without brackets. -/
  | item
  /-- The comma in brackets. -/
  | comma
  /-- The beginning of a key. -/
  | key
  /-- The colon between a key and its value. -/
  | value
  /-- The name of a value that is repeated. -/
  | alias (name : String)
  /-- The name for the value that follows. -/
  | anchor (name : String)
  /-- The tag of the value that follows. -/
  | tag
  /-- A scalar. -/
  | scalar (s : Scalar)
  deriving DecidableEq, Repr

/-! ### Names, tags and the version -/

/-- Reads the name of an anchor. -/
def readName? (s : Source) : Option (String × Source) :=
  let name := takeChars isNameChar s
  let rest := skipChars isNameChar s
  let mayFollow (c : Char) : Bool := c ∈ ['?', ':', ',', ']', '\x7d', '%', '@', '\x60']
  if !name.isEmpty && (endsWord rest || (char? rest).any mayFollow) then
    some (String.ofList (chars name), rest)
  else none

/-- Whether a character may stand in a tag. -/
def isTagChar (c : Char) : Bool :=
  isNameChar c || c ∈ [';', '/', '?', ':', '@', '&', '=', '+', '$', '.', '!', '~', '*', '\x27', '(',
    ')']

/-- Whether a character may stand in a tag between angles. -/
def isAngledTagChar (c : Char) : Bool := isTagChar c || c == ',' || c == '[' || c == ']'

/-- Passes the body of a tag: a text between angles, a text behind a second exclamation mark, or any
text without one. -/
def skipTagBody? (s : Source) : Option Source :=
  if startsWith '<' s then
    let rest := skipChars isAngledTagChar s.tail
    if (takeChars isAngledTagChar s.tail).isEmpty || !startsWith '>' rest then none
    else some rest.tail
  else
    let rest := skipChars isNameChar s
    if startsWith '!' rest then
      if (takeChars isNameChar s).isEmpty && !(takeChars isTagChar rest.tail).isEmpty then
        some (skipChars isTagChar rest.tail)
      else none
    else some (skipChars isTagChar rest)

/-- Passes a tag behind its exclamation mark. -/
def skipTag? (inFlow : Bool) (s : Source) : Option Source :=
  (skipTagBody? s).filter fun rest => endsWord rest || (inFlow && startsWith ',' rest)

/-- Whether digits stand for a number. -/
def isNumeral (digits : List Char) (number : Char) : Bool :=
  digits.length ≤ 9 && digits.dropWhile (· == '0') == [number]

/-- Passes the line that tells the version behind its percent sign. -/
def skipVersion? (s : Source) : Option Source :=
  let name := takeChars isNameChar s
  let afterName := skipChars isNameChar s
  let number := skipChars isBlank afterName
  let point := skipChars Char.isDigit number
  let major := chars (takeChars Char.isDigit number)
  let minor := chars (takeChars Char.isDigit point.tail)
  let rest := skipComment (skipChars Char.isDigit point.tail)
  if chars name == ['Y', 'A', 'M', 'L'] && endsWord afterName && startsWith '.' point &&
      isNumeral major '1' && (isNumeral minor '1' || isNumeral minor '2') && endsLine rest then
    some rest
  else none

theorem length_readName_le {s rest : Source} {name : String}
    (h : readName? s = some (name, rest)) : rest.length ≤ s.length := by
  grind [readName?, length_skipChars_le]

theorem length_skipTag_le {inFlow : Bool} {s rest : Source}
    (h : skipTag? inFlow s = some rest) : rest.length ≤ s.length := by
  simp only [skipTag?, Option.filter_eq_some_iff] at h
  grind [skipTagBody?, length_skipChars_le]

theorem length_skipVersion_le {s rest : Source} (h : skipVersion? s = some rest) :
    rest.length ≤ s.length := by
  grind [skipVersion?, length_skipChars_le, length_skipComment_le]

/-! ### Reading a token -/

/-- A token as it was read. -/
structure Lexeme where
  /-- The token. -/
  token : Token
  /-- Whether a line ended behind it. -/
  endsLine : Bool := false
  /-- The text behind it. -/
  rest : Source

namespace Lexeme

/-- Reads a plain scalar, which is not empty. -/
def ofPlain? (inFlow : Bool) (limit : Nat) (s : Source) : Option Lexeme :=
  match readPlain? inFlow limit s with
  | none => none
  | some p =>
    if p.text.isEmpty then none
    else some ⟨.scalar ⟨String.ofList p.text, .plain⟩, p.endsLine, p.rest⟩

/-- The lexeme of a scalar that was read with its style. -/
def ofScalar (style : Style) : List Char × Source → Lexeme
  | (text, rest) => ⟨.scalar ⟨String.ofList text, style⟩, style == .block, rest⟩

/-- Reads the token that a text begins with, in brackets or not. Scalars that go on over several
lines go on in the column `limit` or behind it. -/
def read? (inFlow : Bool) (limit : Nat) (s : Source) : Option Lexeme :=
  match s with
  | [] => none
  | g :: rest =>
    if isTriple '-' (g :: rest) then some { token := .documentStart, rest := rest.drop 2 }
    else if isTriple '.' (g :: rest) then some { token := .documentEnd, rest := rest.drop 2 }
    else
      match g.char with
      | '[' => some { token := .flowSequence, rest }
      | ']' => some { token := .flowSequenceEnd, rest }
      | '\x7b' => some { token := .flowMap, rest }
      | '\x7d' => some { token := .flowMapEnd, rest }
      | ',' => some { token := .comma, rest }
      | '-' =>
        if endsWord rest then some { token := .item, rest }
        else ofPlain? inFlow limit (g :: rest)
      | '?' =>
        if inFlow || endsWord rest then some { token := .key, rest }
        else ofPlain? inFlow limit (g :: rest)
      | ':' =>
        if inFlow || endsWord rest then some { token := .value, rest }
        else ofPlain? inFlow limit (g :: rest)
      | '*' => (readName? rest).map fun (name, rest) => { token := .alias name, rest }
      | '&' => (readName? rest).map fun (name, rest) => { token := .anchor name, rest }
      | '!' => (skipTag? inFlow rest).map fun rest => { token := .tag, rest }
      | '%' =>
        if g.place.column = 0 then
          (skipVersion? rest).map fun rest => { token := .version, rest }
        else none
      | '|' => if inFlow then none else (readBlock? false limit rest).map (ofScalar .block)
      | '>' => if inFlow then none else (readBlock? true limit rest).map (ofScalar .block)
      | '\x27' => (readQuoted? '\x27' rest).map (ofScalar .quoted)
      | '"' => (readQuoted? '"' rest).map (ofScalar .quoted)
      | '#' => none
      | '@' => none
      | '\x60' => none
      | _ => ofPlain? inFlow limit (g :: rest)

theorem length_ofPlain_lt {inFlow : Bool} {limit : Nat} {s : Source} {l : Lexeme}
    (h : ofPlain? inFlow limit s = some l) : l.rest.length < s.length := by
  grind [ofPlain?, → length_readPlain]

/-- A token is taken off the text. -/
theorem length_rest_lt {inFlow : Bool} {limit : Nat} {s : Source} {l : Lexeme}
    (h : read? inFlow limit s = some l) : l.rest.length < s.length := by
  unfold read? at h
  grind [→ length_ofPlain_lt, → length_readName_le, → length_skipTag_le, → length_skipVersion_le,
    → length_readBlock_le, → length_readQuoted_lt, ofScalar, Option.map_eq_some_iff]

end Lexeme

/-! ### Between tokens -/

/-- The text from the next token on, and whether a key may begin there. Outside brackets a key may
begin on each new line, but not behind tabs, which are no indentation: where a key may begin, a tab
is not passed. -/
def skipToToken (inFlow : Bool) (inComment keyAllowed : Bool) : Source → Bool × Source
  | [] => (keyAllowed, [])
  | g :: rest =>
    if isBreak g.char then skipToToken inFlow false (keyAllowed || !inFlow) rest
    else if inComment || g.char == ' ' || (g.char == '\t' && (inFlow || !keyAllowed)) then
      skipToToken inFlow inComment keyAllowed rest
    else if g.char == '#' then skipToToken inFlow true keyAllowed rest
    else (keyAllowed, g :: rest)

theorem length_skipToToken_le {inFlow inComment keyAllowed k : Bool} {s rest : Source}
    (h : skipToToken inFlow inComment keyAllowed s = (k, rest)) : rest.length ≤ s.length := by
  fun_induction skipToToken inFlow inComment keyAllowed s <;> grind

end CommandGrammar.Yaml
