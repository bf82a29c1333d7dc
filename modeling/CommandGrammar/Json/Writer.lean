/-!
# Writing data

JSON values and their two written forms: on one line without blanks, and over many lines, with every
entry on a line of its own and indented by two spaces for each level. In a string a quote, a
backslash and the control characters are escaped; nothing else is.
-/

namespace CommandGrammar.Json

/-- A value to be written. -/
inductive Value where
  /-- A truth value. -/
  | bool (b : Bool)
  /-- A natural number. -/
  | number (n : Nat)
  /-- A text. -/
  | string (s : String)
  /-- A list of values. -/
  | array (elements : List Value)
  /-- Values under names, in this order. -/
  | object (fields : List (String × Value))

/-- A character inside a string. -/
def escapeChar (c : Char) : List Char :=
  if c = '"' then ['\\', '"']
  else if c = '\\' then ['\\', '\\']
  else if c = '\x08' then ['\\', 'b']
  else if c = '\x0c' then ['\\', 'f']
  else if c = '\n' then ['\\', 'n']
  else if c = '\r' then ['\\', 'r']
  else if c = '\t' then ['\\', 't']
  else if c.toNat < 0x20 then
    let digits := Nat.toDigits 16 c.toNat
    ['\\', 'u'] ++ List.replicate (4 - digits.length) '0' ++ digits
  else [c]

/-- A text as a string. -/
def quoteText (s : String) : String :=
  String.ofList ('"' :: s.toList.flatMap escapeChar ++ ['"'])

namespace Value

mutual

/-- A value on one line. -/
def compact : Value → String
  | bool b => toString b
  | number n => toString n
  | string s => quoteText s
  | array elements => "[" ++ ",".intercalate (compactElements elements) ++ "]"
  | object fields => "\x7b" ++ ",".intercalate (compactFields fields) ++ "\x7d"

/-- Values, each on one line. -/
def compactElements : List Value → List String
  | [] => []
  | v :: vs => v.compact :: compactElements vs

/-- Fields, each on one line. -/
def compactFields : List (String × Value) → List String
  | [] => []
  | (name, v) :: fields => (quoteText name ++ ":" ++ v.compact) :: compactFields fields

end

/-- The beginning of a line at a level. -/
def lineStart (level : Nat) : String := String.ofList ('\n' :: List.replicate (2 * level) ' ')

/-- Written entries between brackets at a level, each on a line of its own. -/
def block (level : Nat) (opening closing : String) (entries : List String) : String :=
  if entries.isEmpty then opening ++ closing
  else
    opening ++ lineStart (level + 1) ++ ("," ++ lineStart (level + 1)).intercalate entries
      ++ lineStart level ++ closing

mutual

/-- A value at a level over many lines. -/
def pretty (level : Nat) : Value → String
  | bool b => toString b
  | number n => toString n
  | string s => quoteText s
  | array elements => block level "[" "]" (prettyElements (level + 1) elements)
  | object fields => block level "\x7b" "\x7d" (prettyFields (level + 1) fields)

/-- Values at a level. -/
def prettyElements (level : Nat) : List Value → List String
  | [] => []
  | v :: vs => v.pretty level :: prettyElements level vs

/-- Fields at a level. -/
def prettyFields (level : Nat) : List (String × Value) → List String
  | [] => []
  | (name, v) :: fields =>
    (quoteText name ++ ": " ++ v.pretty level) :: prettyFields level fields

end

end Value

end CommandGrammar.Json
