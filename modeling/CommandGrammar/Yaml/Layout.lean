import CommandGrammar.Yaml.Token

/-!
# The layout of a text

Collections without brackets are told from the columns in which their parts begin. A token that
begins further to the right than the collection around it begins a collection, and one that begins
further to the left than a collection ends it.

That a key is a key is seen only from the colon behind it. Until then the place where it began is
kept, with the number of tokens read before it, and when the colon is found the token for a key, and
that for the beginning of a map if there is need of one, are put before it. Such a key and its colon
stand on one line, and not too far from each other (`maxKeyLength`).

Inside brackets columns have no meaning.
-/

namespace CommandGrammar.Yaml

/-- The greatest number of characters between the beginning of a key and its colon. -/
def maxKeyLength : Nat := 1024

/-- A place where a key may have begun. -/
structure KeyStart where
  /-- The place. -/
  place : Place
  /-- The number of tokens before it. -/
  position : Nat
  /-- Whether a key must have begun there, because nothing else can stand in its column. -/
  isRequired : Bool
  deriving DecidableEq, Repr

namespace KeyStart

/-- Whether the colon behind a key may still follow at a place. -/
def reaches (k : KeyStart) (p : Place) : Bool :=
  p.line ≤ k.place.line && p.index ≤ k.place.index + maxKeyLength

/-- Forgets a place where a key may have begun, unless one must have begun there. -/
def forget? : Option KeyStart → Option (Option KeyStart)
  | some k => if k.isRequired then none else some none
  | none => some none

/-- Forgets the beginning of a key that does not reach up to a place. -/
def pass? (p : Place) : Option KeyStart → Option (Option KeyStart)
  | some k => if k.reaches p then some (some k) else forget? (some k)
  | none => some none

end KeyStart

/-- The layout of a text up to a place. -/
structure Layout where
  /-- The tokens. -/
  tokens : Array Token := #[]
  /-- The columns of the collections without brackets around the place, the innermost one first. -/
  columns : List Nat := []
  /-- Whether a key may begin at the place. -/
  keyAllowed : Bool := true
  /-- Where a key may have begun inside the innermost brackets. -/
  key? : Option KeyStart := none
  /-- The same for all brackets around them, and outside. -/
  outerKeys : List (Option KeyStart) := []

namespace Layout

/-- Whether the place is inside brackets. -/
def inFlow (l : Layout) : Bool := !l.outerKeys.isEmpty

/-- The first column inside the innermost collection without brackets. -/
def limit (l : Layout) : Nat := (l.columns.head?.map (· + 1)).getD 0

/-- Adds a token at the end. -/
def emit (l : Layout) (token : Token) : Layout := { l with tokens := l.tokens.push token }

/-- Begins a collection in a column, at a position among the tokens, unless the place is already in
one that begins there. -/
def openAt (l : Layout) (column position : Nat) (token : Token) : Layout :=
  if l.inFlow || column < l.limit then l
  else { l with
    columns := column :: l.columns
    tokens := l.tokens.insertIdxIfInBounds position token }

/-- Ends the collections that a predicate on columns tells, up to the first other one. -/
def closeWhile (l : Layout) (ends : Nat → Bool) : Layout :=
  if l.inFlow then l
  else { l with
    columns := l.columns.dropWhile ends
    tokens := l.tokens ++ Array.replicate (l.columns.takeWhile ends).length .blockEnd }

/-- The layout without the place where a key may have begun, if none must have begun there. -/
def forgetKey? (l : Layout) : Option Layout :=
  (KeyStart.forget? l.key?).map fun key? => { l with key? }

/-- The layout when a key may begin at a place. -/
def startKey? (l : Layout) (p : Place) : Option Layout :=
  if l.keyAllowed then
    l.forgetKey?.map fun l => { l with
      key? := some ⟨p, l.tokens.size, !l.inFlow && l.columns.head? == some p.column⟩ }
  else some l

/-- The layout at the place of the next token: keys that began on lines before it or too far away
are no keys, and collections further to the right have ended. -/
def moveTo? (l : Layout) (p : Place) : Option Layout := do
  let key? ← KeyStart.pass? p l.key?
  let outerKeys ← l.outerKeys.mapM (KeyStart.pass? p)
  return { l with key?, outerKeys }.closeWhile (p.column < ·)

/-- Adds a sign that can stand outside brackets only where a key may begin, and that begins a
collection there. -/
def addSign? (l : Layout) (p : Place) (collection token : Token) : Option Layout :=
  if l.inFlow then some (l.emit token)
  else if l.keyAllowed then some ((l.openAt p.column l.tokens.size collection).emit token)
  else none

/-- Adds a token at a place, behind which a line ended or not. -/
def add? (l : Layout) (p : Place) (endsLine : Bool) (token : Token) : Option Layout :=
  match token with
  | .version | .documentStart | .documentEnd => do
    let l ← (l.closeWhile fun _ => true).forgetKey?
    return { l.emit token with keyAllowed := false }
  | .flowSequence | .flowMap => do
    let l ← l.startKey? p
    return { l.emit token with keyAllowed := true, key? := none, outerKeys := l.key? :: l.outerKeys }
  | .flowSequenceEnd | .flowMapEnd => do
    let l ← l.forgetKey?
    return { l.emit token with
      keyAllowed := false, key? := l.outerKeys.head?.getD none, outerKeys := l.outerKeys.tail }
  | .comma => do
    let l ← l.forgetKey?
    return { l.emit token with keyAllowed := true }
  | .item => do
    let l ← (← l.addSign? p .blockSequence token).forgetKey?
    return { l with keyAllowed := true }
  | .key => do
    let l ← (← l.addSign? p .blockMap token).forgetKey?
    return { l with keyAllowed := !l.inFlow }
  | .value =>
    match l.key? with
    | some k =>
      let l := { l with tokens := l.tokens.insertIdxIfInBounds k.position .key }
      let l := l.openAt k.place.column k.position .blockMap
      some { l.emit token with keyAllowed := false, key? := none }
    | none => do
      let l ← l.addSign? p .blockMap token
      return { l with keyAllowed := !l.inFlow }
  | .alias _ | .anchor _ | .tag => do
    let l ← l.startKey? p
    return { l.emit token with keyAllowed := false }
  | .scalar s => do
    let l ← if s.style = .block then l.forgetKey? else l.startKey? p
    return { l.emit token with keyAllowed := endsLine }
  | .blockSequence | .blockMap | .blockEnd => none

/-- The layout at the end of a text. -/
def finish? (l : Layout) : Option Layout := (l.closeWhile fun _ => true).forgetKey?

/-- The layout of a whole text, from a place in it on. -/
def ofSource? (l : Layout) (s : Source) : Option Layout :=
  match _h : skipToToken l.inFlow false l.keyAllowed s with
  | (_, []) => l.finish?
  | (keyAllowed, g :: rest) =>
    match { l with keyAllowed }.moveTo? g.place with
    | none => none
    | some l =>
      match _hr : Lexeme.read? l.inFlow l.limit (g :: rest) with
      | none => none
      | some lexeme =>
        match l.add? g.place lexeme.endsLine lexeme.token with
        | none => none
        | some l => l.ofSource? lexeme.rest
termination_by s.length
decreasing_by
  exact Nat.lt_of_lt_of_le (Lexeme.length_rest_lt _hr) (length_skipToToken_le _h)

end Layout

/-- The tokens of a text. -/
def tokens? (s : Source) : Option (List Token) :=
  (Layout.ofSource? {} s).map fun l => l.tokens.toList

end CommandGrammar.Yaml
