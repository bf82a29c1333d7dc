import CommandGrammar.Text.Visible

/-!
# Texts in descriptions

In the description of a value a text stands in quotes, so that every character of it can be told. A
quote, a backslash and the common control characters have short escapes; any other character that
cannot be seen by itself is given by its code point.
-/

namespace CommandGrammar.Escaped

/-- The escape of a character by its code point. -/
def byCodePoint (c : Char) : List Char :=
  ['\\', 'u', '\x7b'] ++ Nat.toDigits 16 c.toNat ++ ['\x7d']

/-- A character inside quotes of the kind `quote`. -/
def writeChar (quote c : Char) : List Char :=
  if c = quote ∨ c = '\\' then ['\\', c]
  else if c = '\x00' then ['\\', '0']
  else if c = '\t' then ['\\', 't']
  else if c = '\r' then ['\\', 'r']
  else if c = '\n' then ['\\', 'n']
  else if isVisible c then [c]
  else byCodePoint c

/-- A text in double quotes. -/
def text (s : String) : String :=
  String.ofList ('"' :: s.toList.flatMap (writeChar '"') ++ ['"'])

/-- A character in single quotes. -/
def char (c : Char) : String := String.ofList ('\x27' :: writeChar '\x27' c ++ ['\x27'])

end CommandGrammar.Escaped
