/-!
# Reading flat data

Settings arrive as one JSON object or array whose entries are texts. `readFlat?` reads such a value
from a whole text. An entry that is no text is still checked, so the whole must be well formed, but
its content is not kept: what an entry that nobody knows holds does not matter.

A string is read as a list of units first, since an escape may give one half of a character. A list
with an unpaired half is well formed but is no text.
-/

namespace CommandGrammar.Json

/-- Whether a character may stand between the parts of a value. -/
def isBlank (c : Char) : Bool := c == ' ' || c == '\t' || c == '\n' || c == '\r'

/-- The text behind blanks. -/
def skipBlanks (text : List Char) : List Char := text.dropWhile isBlank

/-! ### Strings -/

/-- A part of a string. -/
inductive StringUnit where
  /-- A character. -/
  | char (c : Char)
  /-- A number of sixteen bits given in an escape. -/
  | code (n : Nat)

/-- The value of a hexadecimal digit. -/
def hexValue? (c : Char) : Option Nat :=
  if c.isDigit then some (c.toNat - '0'.toNat)
  else if 'a' ≤ c ∧ c ≤ 'f' then some (c.toNat - 'a'.toNat + 10)
  else if 'A' ≤ c ∧ c ≤ 'F' then some (c.toNat - 'A'.toNat + 10)
  else none

/-- The number that four hexadecimal digits write. -/
def hexCode? (a b c d : Char) : Option Nat := do
  return (((← hexValue? a) * 16 + (← hexValue? b)) * 16 + (← hexValue? c)) * 16 + (← hexValue? d)

/-- The character that a backslash and another character stand for. -/
def unescape? : Char → Option Char
  | '"' => some '"'
  | '\\' => some '\\'
  | '/' => some '/'
  | 'b' => some '\x08'
  | 'f' => some '\x0c'
  | 'n' => some '\n'
  | 'r' => some '\r'
  | 't' => some '\t'
  | _ => none

/-- Reads a string from behind its opening quote to behind its closing one. -/
def readUnits? : List Char → Option (List StringUnit × List Char)
  | [] => none
  | c :: rest =>
    if c = '"' then some ([], rest)
    else if c = '\\' then
      match rest with
      | 'u' :: a :: b :: c :: d :: rest => do
        let n ← hexCode? a b c d
        let (units, rest) ← readUnits? rest
        return (.code n :: units, rest)
      | e :: rest => do
        let c ← unescape? e
        let (units, rest) ← readUnits? rest
        return (.char c :: units, rest)
      | [] => none
    else if c.toNat < 0x20 then none
    else do
      let (units, rest) ← readUnits? rest
      return (.char c :: units, rest)

/-- The characters of a string; numbers that are halves of a character must come in pairs. -/
def decode? : List StringUnit → Option (List Char)
  | [] => some []
  | .char c :: units => (decode? units).map (c :: ·)
  | .code n :: units =>
    if 0xD800 ≤ n ∧ n < 0xDC00 then
      match units with
      | .code m :: units =>
        if 0xDC00 ≤ m ∧ m < 0xE000 then
          (decode? units).map (Char.ofNat (0x10000 + (n - 0xD800) * 0x400 + (m - 0xDC00)) :: ·)
        else none
      | _ => none
    else if 0xDC00 ≤ n ∧ n < 0xE000 then none
    else (decode? units).map (Char.ofNat n :: ·)

/-! ### Other values -/

/-- Skips at least one digit. -/
def skipDigits? (text : List Char) : Option (List Char) :=
  match text with
  | c :: rest => if c.isDigit then some (rest.dropWhile Char.isDigit) else none
  | [] => none

/-- Skips the fraction of a number, if there is one. -/
def skipFraction? : List Char → Option (List Char)
  | '.' :: rest => skipDigits? rest
  | rest => some rest

/-- Skips the exponent of a number, if there is one. -/
def skipExponent? : List Char → Option (List Char)
  | [] => some []
  | c :: rest =>
    if c = 'e' ∨ c = 'E' then
      match rest with
      | '+' :: rest => skipDigits? rest
      | '-' :: rest => skipDigits? rest
      | rest => skipDigits? rest
    else some (c :: rest)

/-- Skips the whole part of a number, which has no needless zero in front. -/
def skipWhole? : List Char → Option (List Char)
  | '0' :: rest => if rest.head?.any Char.isDigit then none else some rest
  | rest => skipDigits? rest

/-- Skips a number. -/
def skipNumber? (text : List Char) : Option (List Char) :=
  let unsigned := match text with
    | '-' :: rest => rest
    | rest => rest
  skipWhole? unsigned >>= skipFraction? >>= skipExponent?

/-- Skips a word. -/
def skipWord? (word : String) (text : List Char) : Option (List Char) :=
  if word.toList.isPrefixOf text then some (text.drop word.length) else none

mutual

/-- Skips a value that has at most `fuel` characters. -/
def skipValue? (fuel : Nat) (text : List Char) : Option (List Char) :=
  match fuel with
  | 0 => none
  | fuel + 1 =>
    match text with
    | '"' :: rest => (readUnits? rest).map Prod.snd
    | '[' :: rest =>
      match skipBlanks rest with
      | ']' :: rest => some rest
      | rest => skipElements? fuel rest
    | '\x7b' :: rest =>
      match skipBlanks rest with
      | '\x7d' :: rest => some rest
      | rest => skipFields? fuel rest
    | 't' :: _ => skipWord? "true" text
    | 'f' :: _ => skipWord? "false" text
    | 'n' :: _ => skipWord? "null" text
    | _ => skipNumber? text

/-- Skips the elements of an array and its end. -/
def skipElements? (fuel : Nat) (text : List Char) : Option (List Char) :=
  match fuel with
  | 0 => none
  | fuel + 1 => do
    match skipBlanks (← skipValue? fuel text) with
    | ',' :: rest => skipElements? fuel (skipBlanks rest)
    | ']' :: rest => some rest
    | _ => none

/-- Skips the fields of an object and its end. -/
def skipFields? (fuel : Nat) (text : List Char) : Option (List Char) :=
  match fuel with
  | 0 => none
  | fuel + 1 => do
    match text with
    | '"' :: rest =>
      let (_, rest) ← readUnits? rest
      match skipBlanks rest with
      | ':' :: rest =>
        match skipBlanks (← skipValue? fuel (skipBlanks rest)) with
        | ',' :: rest => skipFields? fuel (skipBlanks rest)
        | '\x7d' :: rest => some rest
        | _ => none
      | _ => none
    | _ => none

end

/-! ### Flat data -/

/-- A JSON value seen from above: its entries, of which only texts are known. -/
inductive Flat where
  /-- An object. -/
  | object (fields : List (String × Option String))
  /-- An array. -/
  | array (elements : List (Option String))
  /-- A value without entries. -/
  | scalar

/-- Reads an entry of at most `fuel` characters: its text, if it is one. -/
def readEntry? (fuel : Nat) : List Char → Option (Option String × List Char)
  | '"' :: rest => (readUnits? rest).map fun (units, rest) =>
    ((decode? units).map String.ofList, rest)
  | rest => (skipValue? fuel rest).map fun rest => (none, rest)

/-- Reads the elements of an array and its end. -/
def readElements? (fuel : Nat) (text : List Char) : Option (List (Option String) × List Char) :=
  match fuel with
  | 0 => none
  | fuel + 1 => do
    let (entry, rest) ← readEntry? fuel text
    match skipBlanks rest with
    | ',' :: rest =>
      let (entries, rest) ← readElements? fuel (skipBlanks rest)
      return (entry :: entries, rest)
    | ']' :: rest => return ([entry], rest)
    | _ => none

/-- Reads the fields of an object and its end. The name of a field must be a text. -/
def readFields? (fuel : Nat) (text : List Char) :
    Option (List (String × Option String) × List Char) :=
  match fuel with
  | 0 => none
  | fuel + 1 => do
    match text with
    | '"' :: rest =>
      let (units, rest) ← readUnits? rest
      let name ← decode? units
      match skipBlanks rest with
      | ':' :: rest =>
        let (entry, rest) ← readEntry? fuel (skipBlanks rest)
        let field := (String.ofList name, entry)
        match skipBlanks rest with
        | ',' :: rest =>
          let (fields, rest) ← readFields? fuel (skipBlanks rest)
          return (field :: fields, rest)
        | '\x7d' :: rest => return ([field], rest)
        | _ => none
      | _ => none
    | _ => none

/-- Reads a value from a text that holds nothing else. Every step of reading takes a character, so
there cannot be more steps than characters. -/
def readFlat? (text : String) : Option Flat := do
  let fuel := text.length + 1
  let body := skipBlanks text.toList
  let (value, rest) ← match body with
    | '\x7b' :: rest =>
      match skipBlanks rest with
      | '\x7d' :: rest => pure (.object [], rest)
      | rest => (readFields? fuel rest).map fun (fields, rest) => (Flat.object fields, rest)
    | '[' :: rest =>
      match skipBlanks rest with
      | ']' :: rest => pure (.array [], rest)
      | rest => (readElements? fuel rest).map fun (elements, rest) => (Flat.array elements, rest)
    | body => (skipValue? fuel body).map fun rest => (Flat.scalar, rest)
  if (skipBlanks rest).isEmpty then return value else none

end CommandGrammar.Json
