import CommandGrammar.Yaml.Layout

/-!
# Values in settings files

A settings file holds one document at most, and a document holds one value: a scalar, a sequence or a
map. A value that is left out is an empty plain scalar. A value with a name may be repeated by its
name further on.

`Yaml.read?` gives the value of a whole file, or nothing if the file is not understood.
-/

namespace CommandGrammar.Yaml

/-- A value. -/
inductive Node where
  /-- A scalar. -/
  | scalar (s : Scalar)
  /-- A sequence. -/
  | sequence (items : List Node)
  /-- A map, in the order of the text. -/
  | map (fields : List (Node × Node))
  /-- A sequence or map again in which it stands. -/
  | enclosing

instance : Inhabited Node := ⟨.enclosing⟩

/-- A value that is left out. -/
def Node.nothing : Node := .scalar .nothing

/-- What has to be known to read on: the tokens that are left, and the values with names. -/
structure Remaining where
  /-- The tokens. -/
  tokens : List Token
  /-- The values with names, the last one first. -/
  anchors : List (String × Node) := []

/-- A reader of values. -/
abbrev Reader := StateT Remaining Option

namespace Reader

/-- The next token. -/
def next? : Reader (Option Token) := return (← get).tokens.head?

/-- Passes a token. -/
def pass : Reader Unit := modify fun r => { r with tokens := r.tokens.tail }

/-- Passes a token if it is the next one, and tells whether it was. -/
def accept (token : Token) : Reader Bool := do
  if (← next?) = some token then
    pass
    return true
  else return false

/-- Passes a token, which must be the next one. -/
def expect (token : Token) : Reader Unit := do
  if ! (← accept token) then failure

/-- Gives a name to a value. -/
def name (anchor? : Option String) (node : Node) : Reader Unit :=
  match anchor? with
  | some anchor => modify fun r => { r with anchors := (anchor, node) :: r.anchors }
  | none => return

/-- The value of a name. -/
def named (anchor : String) : Reader Node := do
  match (← get).anchors.lookup anchor with
  | some node => return node
  | none => failure

/-- Passes the name and the tag before a value, in any order. Gives the name, and whether there was
any of both. -/
def properties : Reader (Option String × Bool) := do
  let isTagged ← accept .tag
  match ← next? with
  | some (.anchor anchor) =>
    pass
    if !isTagged then discard (accept .tag)
    return (some anchor, true)
  | _ => return (none, isTagged)

/-! Calls inside calls are counted down in the following. Of four of them one at least passes a
token, so that four for every token are enough. -/

mutual

/-- Reads a value. The items of a sequence may stand in the column of the key before them. -/
def node (calls : Nat) (behindKey : Bool) : Reader Node :=
  match calls with
  | 0 => failure
  | calls + 1 => do
    if let some (.alias anchor) := ← next? then
      pass
      named anchor
    else
      let (anchor?, hasProperties) ← properties
      name anchor? .enclosing
      let node ← content calls behindKey hasProperties
      name anchor? node
      return node

/-- Reads a value behind its name and tag. It may be left out if there is any of them. -/
def content (calls : Nat) (behindKey hasProperties : Bool) : Reader Node :=
  match calls with
  | 0 => failure
  | calls + 1 => do
    match ← next? with
    | some (.scalar s) =>
      pass
      return .scalar s
    | some .blockSequence =>
      pass
      return .sequence (← blockItems calls)
    | some .blockMap =>
      pass
      return .map (← blockFields calls)
    | some .flowSequence =>
      pass
      return .sequence (← flowItems calls true)
    | some .flowMap =>
      pass
      return .map (← flowFields calls true)
    | some .item =>
      if behindKey then return .sequence (← bareItems calls)
      else if hasProperties then return .nothing
      else failure
    | _ => if hasProperties then return .nothing else failure

/-- Reads a value, which is left out if one of some tokens follows. -/
def nodeBefore (calls : Nat) (behindKey : Bool) (ends : List Token) : Reader Node :=
  match calls with
  | 0 => failure
  | calls + 1 => do
    if (← next?).any (· ∈ ends) then return .nothing else node calls behindKey

/-- Reads a value behind a colon. Both may be left out. -/
def valueBefore (calls : Nat) (behindKey : Bool) (ends : List Token) : Reader Node :=
  match calls with
  | 0 => failure
  | calls + 1 => do
    if ← accept .value then nodeBefore calls behindKey ends else return .nothing

/-- Reads the items of a sequence without brackets. -/
def blockItems (calls : Nat) : Reader (List Node) :=
  match calls with
  | 0 => failure
  | calls + 1 => do
    if ← accept .item then
      let item ← nodeBefore calls false [.item, .blockEnd]
      return item :: (← blockItems calls)
    else
      expect .blockEnd
      return []

/-- Reads the items of a sequence in the column of the key before it, up to the next key or to the
end of the map. -/
def bareItems (calls : Nat) : Reader (List Node) :=
  match calls with
  | 0 => failure
  | calls + 1 => do
    if ← accept .item then
      let item ← nodeBefore calls false [.item, .key, .value, .blockEnd]
      return item :: (← bareItems calls)
    else return []

/-- Reads the keys and values of a map without braces. -/
def blockFields (calls : Nat) : Reader (List (Node × Node)) :=
  match calls with
  | 0 => failure
  | calls + 1 => do
    if ← accept .key then
      let ends := [.key, .value, .blockEnd]
      let key ← nodeBefore calls true ends
      let value ← valueBefore calls true ends
      return (key, value) :: (← blockFields calls)
    else
      expect .blockEnd
      return []

/-- Reads the items of a sequence in brackets, with a comma before each but the first. A key and a
value among them are a map. -/
def flowItems (calls : Nat) (isFirst : Bool) : Reader (List Node) :=
  match calls with
  | 0 => failure
  | calls + 1 => do
    if ← accept .flowSequenceEnd then return []
    else
      if !isFirst then expect .comma
      if ← accept .key then
        let key ← nodeBefore calls false [.value, .comma, .flowSequenceEnd]
        let value ← valueBefore calls false [.comma, .flowSequenceEnd]
        return .map [(key, value)] :: (← flowItems calls false)
      else if ← accept .flowSequenceEnd then return []
      else
        let item ← node calls false
        return item :: (← flowItems calls false)

/-- Reads the keys and values of a map in braces, with a comma before each but the first. -/
def flowFields (calls : Nat) (isFirst : Bool) : Reader (List (Node × Node)) :=
  match calls with
  | 0 => failure
  | calls + 1 => do
    if ← accept .flowMapEnd then return []
    else
      if !isFirst then expect .comma
      if ← accept .key then
        let key ← nodeBefore calls false [.value, .comma, .flowMapEnd]
        let value ← valueBefore calls false [.comma, .flowMapEnd]
        return (key, value) :: (← flowFields calls false)
      else if ← accept .flowMapEnd then return []
      else
        let key ← node calls false
        return (key, .nothing) :: (← flowFields calls false)

end

/-- Reads the value of the one document of a file. A document in which the beginning is marked may be
empty, and so may the file. -/
def document : Reader Node := do
  let calls := 4 * (← get).tokens.length + 4
  if (← next?).isNone then return .nothing
  else if ← accept .version then
    expect .documentStart
    behindStart calls
  else if ← accept .documentStart then behindStart calls
  else node calls false
where
  /-- Reads the value behind the mark of the beginning. -/
  behindStart (calls : Nat) : Reader Node := do
    match ← next? with
    | none | some .version | some .documentStart | some .documentEnd => return .nothing
    | some _ => node calls false

end Reader

/-- The value of a file. Behind its document there may be nothing but marks of its end. -/
def read? (text : String) : Option Node := do
  let tokens ← tokens? (← Source.ofString? text)
  let (node, remaining) ← Reader.document.run { tokens }
  if remaining.tokens.all (· = .documentEnd) then return node else none

end CommandGrammar.Yaml
