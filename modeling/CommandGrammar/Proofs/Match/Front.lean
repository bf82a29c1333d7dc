import CommandGrammar.Proofs.Grammar.Index
import CommandGrammar.Proofs.Match.Search

/-!
# Text in front of a line

The same text can be read behind different fronts: all of a line from some place on, or what stands
behind two names for one command. This module says how a place, a span, a trail, a match and a
failure look when there is more text in front of them (`Cursor.behind` and the other functions of
that name): every offset grows by the bytes of the front, and nothing else changes. The literals of a
trail may reach back into the front, so it is told how far they reach there.

Main statement: matching moves along (`Tree.matchFrom_behind`), if every argument type depends on
nothing but the context and the text still to read (`ArgumentType.Local`). All types at hand do
(`ArgumentType.local_of_builtIn`); one that a caller brings may not.

The proof follows the search: each of its parts, from one symbol up to the whole, is the same
function of the text still to read, and puts its offsets together only by moving forward.
-/

namespace CommandGrammar

variable {κ : Type}

/-! ### Places, spans and what is kept under them -/

/-- The same place with more text in front of the line. -/
def Cursor.behind (front : List Char) (c : Cursor) : Cursor := ⟨front ++ c.consumed, c.rest⟩

/-- The same span with more text in front of the line. -/
def Span.behind (front : List Char) (a : Span) : Span :=
  ⟨byteLength front + a.start, byteLength front + a.stop⟩

/-- The same binding with more text in front of the line. -/
def Binding.behind (front : List Char) (b : Binding) : Binding := { b with span := b.span.behind front }

/-- The same flag with more text in front of the line. -/
def FlagHit.behind (front : List Char) (hit : FlagHit) : FlagHit :=
  { hit with span := hit.span.behind front }

/-- The same error with more text in front of the line. -/
def ParseError.behind (front : List Char) (e : ParseError) : ParseError :=
  { e with place := e.place.behind front }

/-- The same failure with more text in front of the line. -/
def Failure.behind (front : List Char) : Failure → Failure
  | parse e => parse (e.behind front)
  | failure => failure

namespace Cursor

variable (front : List Char) (c : Cursor)

@[simp] theorem rest_behind : (c.behind front).rest = c.rest := rfl

@[simp] theorem readable_behind : (c.behind front).readable = c.readable := rfl

theorem index_behind : (c.behind front).index = byteLength front + c.index :=
  byteLength_append front c.consumed

theorem spanTo_behind (d : Cursor) :
    (c.behind front).spanTo (d.behind front) = (c.spanTo d).behind front := by
  simp only [spanTo, Span.behind, index_behind]

theorem behind_consumed : Cursor.behind c.consumed ⟨[], c.rest⟩ = c := by
  simp [Cursor.behind]

theorem behind_behind (earlier : List Char) :
    (c.behind front).behind earlier = c.behind (earlier ++ front) := by
  simp [Cursor.behind]

theorem advance_behind (count : Nat) : (c.behind front).advance count = (c.advance count).behind front := by
  simp [Cursor.behind, advance]

theorem skipBytes_behind (count : Nat) :
    (c.behind front).skipBytes count = (c.skipBytes count).behind front := by
  simp [Cursor.behind, skipBytes]

theorem dropWhile_behind (p : Char → Bool) :
    (c.behind front).dropWhile p = (c.dropWhile p).behind front := by
  simp [Cursor.behind, dropWhile]

theorem nextPart?_behind : (c.behind front).nextPart? = c.nextPart?.map (Cursor.behind front) := by
  unfold nextPart?
  cases h : c.peek with
  | none => simp [show (c.behind front).peek = none from h]
  | some next =>
    simp only [show (c.behind front).peek = some next from h, advance_behind]
    split <;> rfl

theorem readFlag?_behind (flag : Char) :
    (c.behind front).readFlag? flag = (c.readFlag? flag).map (Cursor.behind front) := by
  unfold readFlag?
  rw [rest_behind]
  split
  · split
    · rw [advance_behind, Option.map_some]
    · rfl
  · rfl

end Cursor

/-! ### Tables and trails -/

namespace Table

variable {α β γ : Type} [DecidableEq α]

/-- The same table with another form of the values. -/
def map (f : β → γ) (t : Table α β) : Table α γ :=
  ⟨t.entries.map fun entry => (entry.1, f entry.2), by
    simpa [List.map_map, Function.comp_def] using t.nodup_keys⟩

theorem find?_map (f : β → γ) (t : Table α β) (key : α) : (t.map f).find? key = (t.find? key).map f := by
  simp only [find?, map]
  induction t.entries with
  | nil => rfl
  | cons entry entries ih =>
    rw [List.map_cons, valueIn, valueIn, ih]
    split <;> rfl

theorem map_insert (f : β → γ) (t : Table α β) (key : α) (value : β) :
    (t.insert key value).map f = (t.map f).insert key (f value) := by
  have hentries : ∀ entries : List (α × β),
      (setEntry key value entries).map (fun entry => (entry.1, f entry.2)) =
        setEntry key (f value) (entries.map fun entry => (entry.1, f entry.2)) := by
    intro entries
    induction entries with
    | nil => rfl
    | cons entry entries ih =>
      rw [List.map_cons, setEntry, setEntry]
      split
      · rw [List.map_cons]
      · rw [List.map_cons, ih]
  simp only [map, insert, hentries]

end Table

/-- The same bindings with more text in front of the line. -/
def Bindings.behind (front : List Char) (b : Bindings) : Bindings where
  context := b.context
  arguments := b.arguments.map (Binding.behind front)
  flags := b.flags.map (FlagHit.behind front)

/-- The values of the arguments stay as they are. -/
@[simp] theorem Bindings.find?_behind (front : List Char) (b : Bindings) (a : Argument) :
    (b.behind front).find? a = b.find? a := by
  simp only [find?, behind, Table.find?_map]
  cases b.arguments.find? a.key <;> rfl

namespace Trail

variable (front : List Char) (reach : Span) (t : Trail)

/-- The same trail with more text in front of the line, over which the literals reach as well. -/
def behind : Trail :=
  { t.toBindings.behind front with literals := (t.literals.behind front).hull reach }

theorem addLiteral_behind (span : Span) :
    (t.behind front reach).addLiteral (span.behind front) = (t.addLiteral span).behind front reach := by
  have hhull : ∀ a b : Span,
      ((a.behind front).hull reach).hull (b.behind front) = ((a.hull b).behind front).hull reach := by
    intro a b
    simp only [Span.behind, Span.hull, Span.mk.injEq]
    omega
  simp only [behind, addLiteral, hhull]

theorem addArgument_behind (a : Argument) (span : Span) (value : Value) :
    (t.behind front reach).addArgument a (span.behind front) value =
      (t.addArgument a span value).behind front reach := by
  simp only [behind, addArgument, Bindings.behind, Table.map_insert]
  rfl

theorem addFlag_behind (span : Span) (flag : Char) :
    (t.behind front reach).addFlag (span.behind front) flag =
      (t.addFlag span flag).behind front reach := by
  simp only [behind, addFlag, Bindings.behind, List.map_append]
  rfl

end Trail

/-- The same match with more text in front of the line, over which the literals reach as well. -/
def Match.behind (front : List Char) (reach : Span) (m : Match) : Match :=
  ⟨m.node, m.cursor.behind front, m.trail.behind front reach⟩

theorem Match.better_behind (front : List Char) (reach : Span) (first second : Option Match) :
    better (first.map (Match.behind front reach)) (second.map (Match.behind front reach)) =
      (better first second).map (Match.behind front reach) := by
  cases first with
  | none => rfl
  | some first =>
    cases second with
    | none => rfl
    | some second =>
      simp only [better, Option.map_some]
      rw [show (first.behind front reach).isComplete = first.isComplete from rfl,
        show (second.behind front reach).isComplete = second.isComplete from rfl, apply_ite (Option.map _)]
      rfl

/-! ### Argument types -/

/-- What a reading gives with more text in front of the line. -/
def Reading.behind {α : Type} (front : List Char) (r : Reading α) : Reading α :=
  (r.map fun (value, after) => (value, after.behind front)).mapError (ParseError.behind front)

/-- Reading depends on nothing but the context and the text still to read. -/
def ArgumentType.Local (type : ArgumentType) : Prop :=
  ∀ context (c : Cursor),
    type.read context c = (type.read context ⟨[], c.rest⟩).behind c.consumed

/-- Whether a type is one of those at hand. -/
def ArgumentType.isBuiltIn : ArgumentType → Bool
  | custom _ => false
  | _ => true

theorem Reading.behind_behind {α : Type} (front earlier : List Char) (r : Reading α) :
    (r.behind front).behind earlier = r.behind (earlier ++ front) := by
  cases r with
  | error e =>
    simp only [Reading.behind, Except.map, Except.mapError, ParseError.behind, Cursor.behind_behind]
  | ok p => simp only [Reading.behind, Except.map, Except.mapError, Cursor.behind_behind]

theorem Reading.as_behind {α β : Type} (f : α → β) (front : List Char) (r : Reading α) :
    Reading.as f (r.behind front) = (Reading.as f r).behind front := by
  cases r <;> rfl

theorem NumberDomain.read_behind {α : Type} (domain : NumberDomain α) (bounds : Option (α × α))
    (front : List Char) (c : Cursor) :
    domain.read bounds (c.behind front) = (domain.read bounds c).behind front := by
  simp only [NumberDomain.read, Cursor.rest_behind, Cursor.dropWhile_behind]
  split
  · rfl
  · split
    · rfl
    · split <;> rfl

theorem readQuoted_behind (front : List Char) (c : Cursor) :
    readQuoted (c.behind front) = (readQuoted c).behind front := by
  simp only [readQuoted, Cursor.rest_behind, Cursor.advance_behind,
    show (c.behind front).peek = c.peek from rfl]
  split
  · split <;> rfl
  · rfl

theorem readBoolean_behind (front : List Char) (c : Cursor) :
    readBoolean (c.behind front) = (readBoolean c).behind front := by
  simp only [readBoolean, Cursor.rest_behind, Cursor.dropWhile_behind]
  split <;> rfl

/-- The types at hand read the same wherever a text stands. -/
theorem ArgumentType.read_behind_of_builtIn {type : ArgumentType} (h : type.isBuiltIn = true)
    (context : Context) (front : List Char) (c : Cursor) :
    type.read context (c.behind front) = (type.read context c).behind front := by
  cases type with
  | integer kind bounds =>
    rw [ArgumentType.read, NumberDomain.read_behind, Reading.as_behind]
    rfl
  | floating kind bounds =>
    rw [ArgumentType.read, NumberDomain.read_behind, Reading.as_behind]
    rfl
  | text mode =>
    cases mode with
    | word =>
      simp only [ArgumentType.read, readWord, Cursor.rest_behind, Cursor.dropWhile_behind]
      rfl
    | greedy =>
      simp only [ArgumentType.read, readGreedy, Cursor.rest_behind, Cursor.advance_behind]
      rfl
    | quoted =>
      rw [ArgumentType.read, readQuoted_behind, Reading.as_behind]
      rfl
  | boolean =>
    rw [ArgumentType.read, readBoolean_behind, Reading.as_behind]
    rfl
  | custom type => cases h

/-- **The types at hand depend on nothing but the text still to read.** -/
theorem ArgumentType.local_of_builtIn {type : ArgumentType} (h : type.isBuiltIn = true) :
    type.Local := by
  intro context c
  rw [← read_behind_of_builtIn h, Cursor.behind_consumed]

theorem ArgumentType.Local.read_behind {type : ArgumentType} (h : type.Local) (context : Context)
    (front : List Char) (c : Cursor) :
    type.read context (c.behind front) = (type.read context c).behind front := by
  rw [h context (c.behind front), h context c, Reading.behind_behind]
  rfl

/-! ### Symbols and steps -/

/-- The kind of a node reads the same wherever a text stands. -/
def Kind.Local : Kind → Prop
  | argument a => a.type.Local
  | _ => True

/-- Whether a symbol is no argument, or one of a type at hand. -/
def Symbol.isBuiltIn : Symbol κ → Bool
  | piece (.argument a) _ => a.type.isBuiltIn
  | _ => true

theorem Symbol.read_behind {symbol : Symbol κ} (h : symbol.kind.Local) (context : Context)
    (front : List Char) (reach : Span) (c : Cursor) (t : Trail) :
    symbol.read context (c.behind front) (t.behind front reach) =
      ((symbol.read context c t).map (Option.map fun (after, trail) =>
        (after.behind front, trail.behind front reach))).mapError (ParseError.behind front) := by
  rcases symbol with ⟨name | a, ending⟩ | f
  · simp only [read, Cursor.skipBytes_behind, Cursor.spanTo_behind, Trail.addLiteral_behind]
    rfl
  · have hread := ArgumentType.Local.read_behind h context front c
    simp only [read, hread]
    cases a.type.read context c with
    | error e => rfl
    | ok p =>
      simp only [Reading.behind, Except.map, Except.mapError, Cursor.spanTo_behind,
        Trail.addArgument_behind, Option.map_some]
  · simp only [read, Cursor.readFlag?_behind]
    cases c.readFlag? f with
    | none => rfl
    | some after =>
      simp only [Except.map, Except.mapError, Option.map_some, Cursor.spanTo_behind,
        Trail.addFlag_behind]

/-- The same step with more text in front of the line. -/
def Step.behind (front : List Char) (reach : Span) (s : Step κ) : Step κ :=
  ⟨s.node, s.cursor.behind front, s.trail.behind front reach⟩

namespace Tree

/-- Every argument type of a grammar depends on nothing but the context and the text still to
read. -/
def ReadsLocally (tree : Tree κ) : Prop :=
  ∀ id a, tree.kind? id = some (.argument a) → a.type.Local

/-- Whether all arguments of a grammar are of types at hand. -/
def isBuiltIn (tree : Tree κ) : Bool := tree.nodes.all fun node => node.symbol?.all Symbol.isBuiltIn

variable {tree : Tree κ} {context : Context} {front : List Char} {reach : Span} {id child : NodeId}
  {anchor : Option NodeId} {c : Cursor} {t : Trail}

theorem isBuiltIn_of_kind? (h : tree.isBuiltIn = true) {a : Argument}
    (hk : tree.kind? id = some (.argument a)) : a.type.isBuiltIn = true := by
  obtain ⟨symbol, hs, hkind⟩ := Option.map_eq_some_iff.1 hk
  obtain ⟨node, hn, hs⟩ := Option.bind_eq_some_iff.1 hs
  obtain ⟨hid, hnode⟩ := Array.getElem?_eq_some_iff.1 hn
  have hall := Array.all_eq_true.1 h id hid
  rw [hnode, hs] at hall
  rcases symbol with ⟨name | b, ending⟩ | f
  · cases hkind
  · obtain rfl : b = a := Kind.argument.inj hkind
    exact hall
  · cases hkind

theorem readsLocally_of_isBuiltIn (h : tree.isBuiltIn = true) : tree.ReadsLocally :=
  fun _ _ hk => ArgumentType.local_of_builtIn (isBuiltIn_of_kind? h hk)

theorem ReadsLocally.of_symbol (h : tree.ReadsLocally) {node : Node κ} {symbol : Symbol κ}
    (hn : tree.node? id = some node) (hs : node.symbol? = some symbol) : symbol.kind.Local := by
  have hk : tree.kind? id = some symbol.kind := by
    rw [kind?, symbol?_of_node? hn, hs, Option.map_some]
  rcases symbol with ⟨name | a, ending⟩ | f
  · trivial
  · exact h id a hk
  · trivial

/-- What is found with more text in front of the line. -/
def foundBehind (front : List Char) (reach : Span) (found : Except Failure (Option Match)) :
    Except Failure (Option Match) :=
  (found.map (Option.map (Match.behind front reach))).mapError (Failure.behind front)

theorem step_behind (h : tree.ReadsLocally) (context : Context) (front : List Char) (reach : Span)
    (child : NodeId) (c : Cursor) (t : Trail) :
    tree.step context child (c.behind front) (t.behind front reach) =
      ((tree.step context child c t).map (Option.map (Step.behind front reach))).mapError
        (Failure.behind front) := by
  unfold step
  cases hn : tree.node child with
  | error violation => rfl
  | ok node =>
    cases hs : node.symbol? with
    | none => simp only [hs]; rfl
    | some symbol =>
      have hread := Symbol.read_behind (h.of_symbol (node_eq_ok.1 hn) hs) context front reach c t
      simp only [hs, hread]
      split
      · cases symbol.read context c t with
        | error e => rfl
        | ok result =>
          rcases result with _ | ⟨after, trail⟩
          · rfl
          · simp only [Except.map, Except.mapError, Option.map_some, Cursor.nextPart?_behind]
            cases after.nextPart? <;> rfl
      · rfl

/-! ### The search -/

/-- The statement about all texts shorter than the one at hand. -/
def MovesBelow (tree : Tree κ) (context : Context) (front : List Char) (reach : Span)
    (c : Cursor) : Prop :=
  ∀ id anchor (d : Cursor) t, d.rest.length < c.rest.length →
    tree.matchFrom context id anchor (d.behind front) (t.behind front reach) =
      foundBehind front reach (tree.matchFrom context id anchor d t)

theorem resume_behind (ih : tree.MovesBelow context front reach c) {s : Step κ}
    (hlt : s.cursor.rest.length < c.rest.length) :
    tree.resume context anchor child (s.behind front reach) =
      foundBehind front reach (tree.resume context anchor child s) := by
  unfold resume
  cases he : s.cursor.readable with
  | true =>
    simp only [Step.behind, Cursor.readable_behind, he, ↓reduceIte]
    exact ih _ _ _ _ hlt
  | false =>
    simp only [Step.behind, Cursor.readable_behind, he, Bool.false_eq_true, ↓reduceIte]
    rfl

theorem matchAny_behind (h : tree.ReadsLocally) (ih : tree.MovesBelow context front reach c)
    (readable : c.rest ≠ []) (readableBehind : (c.behind front).rest ≠ [])
    (here best : Option Match) (children : List NodeId) :
    tree.matchAny context anchor (c.behind front) readableBehind (t.behind front reach)
        (here.map (Match.behind front reach)) (best.map (Match.behind front reach)) children =
      foundBehind front reach (tree.matchAny context anchor c readable t here best children) := by
  induction children generalizing best with
  | nil =>
    rw [matchAny_nil, matchAny_nil]
    cases best <;> rfl
  | cons child children ihc =>
    have hstep := step_behind h context front reach child c t
    cases hs : tree.step context child c t with
    | error failure =>
      rw [hs] at hstep
      rw [matchAny_cons_of_error hs, matchAny_cons_of_error hstep]
      rfl
    | ok result =>
      rw [hs] at hstep
      cases result with
      | none =>
        rw [matchAny_cons_of_none hs, matchAny_cons_of_none hstep]
        exact ihc best
      | some s =>
        have hlt := length_rest_lt_of_step hs readable
        cases hr : s.node.redirect? with
        | some target =>
          rw [matchAny_cons_of_redirect hs hr,
            matchAny_cons_of_redirect (s := s.behind front reach) hstep hr]
          exact ih _ _ _ _ hlt
        | none =>
          rw [matchAny_cons_of_resume hs hr,
            matchAny_cons_of_resume (s := s.behind front reach) hstep hr, resume_behind ih hlt]
          cases tree.resume context anchor child s with
          | error failure => rfl
          | ok found =>
            have hbest := ihc (Match.better best found)
            rw [← Match.better_behind] at hbest
            exact hbest

/-- **More text in front of a line moves what is found and changes nothing else.** -/
theorem matchFrom_behind (h : tree.ReadsLocally) (context : Context) (front : List Char)
    (reach : Span) (id : NodeId) (anchor : Option NodeId) (c : Cursor) (t : Trail) :
    tree.matchFrom context id anchor (c.behind front) (t.behind front reach) =
      foundBehind front reach (tree.matchFrom context id anchor c t) := by
  induction hn : c.rest.length using Nat.strongRecOn generalizing id anchor c t with
  | ind n ih =>
    have ihc : tree.MovesBelow context front reach c := by
      intro id anchor d t hd
      exact ih d.rest.length (hn ▸ hd) id anchor d t rfl
    rw [matchFrom, matchFrom]
    cases tree.node id with
    | error violation => rfl
    | ok node =>
      have hhere : (if node.isChild then some (⟨id, c.behind front, t.behind front reach⟩ : Match)
          else none) = Option.map (Match.behind front reach)
            (if node.isChild then some ⟨id, c, t⟩ else none) := by
        cases node.isChild <;> rfl
      simp only [hhere]
      split
      · rename_i readable
        rw [dif_pos (show c.rest ≠ [] from readable)]
        exact matchAny_behind h ihc readable readable _ none (node.relevantChildren c)
      · rename_i hnil
        rw [dif_neg (show ¬ c.rest ≠ [] from hnil)]
        rfl

end Tree

end CommandGrammar
