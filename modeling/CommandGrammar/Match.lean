import CommandGrammar.Grammar.Tree
import CommandGrammar.Trail

/-!
# Matching a line against a grammar

A line is matched from the root on. At every node each child that the text may match and that may be
used in the context is tried on its own copy of the place and of the trail. A child that matches must
be followed by a separator or by the end of the line, and then reading goes on below it. Of several
matches the first one that uses up the line is taken, and the first one at all if none does; a node
below which nothing matches is itself where the match ends, but not the root.

A child with a redirect is final: reading goes on at its target, no other child is looked at, and
what was found before is dropped. If its target is the root and nothing matches there, then there is
no match by way of the child's parent either.

Flags do not end a match. A line that ends behind flags ends at the last piece before them, which
is called the anchor here.

A child whose type refuses the text ends everything: no other child is tried.

Matching ends because every part takes at least one character or is the last one
(`Tree.length_rest_lt_of_step`).
-/

namespace CommandGrammar

/-- Where a match ends, and what was collected on the way. -/
structure Match where
  /-- The last node. -/
  node : NodeId
  /-- The place behind what was matched. -/
  cursor : Cursor
  /-- What was collected. -/
  trail : Trail

namespace Match

/-- Whether a match uses up the line. -/
def isComplete (m : Match) : Bool := !m.cursor.readable

/-- The better one of two matches: the first one, unless only the second one is complete. -/
def better : Option Match → Option Match → Option Match
  | none, second => second
  | first, none => first
  | some first, some second =>
    if !first.isComplete && second.isComplete then some second else some first

end Match

/-- Reads the flag `flag` as a whole token. -/
def Cursor.readFlag? (c : Cursor) (flag : Char) : Option Cursor :=
  match c.rest with
  | '-' :: next :: rest =>
    if next = flag ∧ rest.head?.all (· == separator) then some (c.advance 2) else none
  | _ => none

/-- Reads a symbol at a place, and records it. There is no result if the symbol does not match. -/
def Symbol.read {κ : Type} (symbol : Symbol κ) (context : Context) (c : Cursor) (t : Trail) :
    Except ParseError (Option (Cursor × Trail)) :=
  match symbol with
  | .piece (.literal name) _ =>
    let after := c.skipBytes (byteLength name.toList)
    .ok (some (after, t.addLiteral (c.spanTo after)))
  | .piece (.argument a) _ =>
    match a.type.read context c with
    | .ok (value, after) => .ok (some (after, t.addArgument a (c.spanTo after) value))
    | .error e => .error e
  | .flag f => .ok ((c.readFlag? f).map fun after => (after, t.addFlag (c.spanTo after) f))

/-- A node that matched, the place at which the next part begins, and what was collected. -/
structure Step (κ : Type) where
  /-- The node. -/
  node : Node κ
  /-- Where the next part begins. -/
  cursor : Cursor
  /-- What was collected. -/
  trail : Trail

namespace Tree

variable {κ : Type}

/-- Tries a child at a place. There is no result if it may not be used or does not match. -/
def step (tree : Tree κ) (context : Context) (child : NodeId) (c : Cursor) (t : Trail) :
    Except Failure (Option (Step κ)) :=
  match tree.node child with
  | .error violation => .error (.violation violation)
  | .ok node =>
    match node.symbol? with
    | none => .ok none
    | some symbol =>
      if node.canUse context then
        match symbol.read context c t with
        | .error e => .error (.parse e)
        | .ok none => .ok none
        | .ok (some (after, trail)) =>
          match after.nextPart? with
          | some next => .ok (some ⟨node, next, trail⟩)
          | none => .error (.parse ⟨.incompleteParse, after⟩)
      else .ok none

end Tree

/-! ### Every step moves forward -/

/-- A flag takes a minus sign and its character. -/
theorem Cursor.rest_of_readFlag? {c d : Cursor} {flag : Char} (h : c.readFlag? flag = some d) :
    c.rest = ['-', flag] ++ d.rest ∧ d.consumed = c.consumed ++ ['-', flag] := by
  unfold readFlag? at h
  split at h
  · rename_i next rest hrest
    split at h
    · rename_i hnext
      obtain ⟨rfl, -⟩ := hnext
      obtain rfl := Option.some.inj h
      exact ⟨by simp [advance, hrest], by simp [advance, hrest]⟩
    · cases h
  · cases h

theorem Cursor.advances_of_readFlag? {c d : Cursor} {flag : Char} (h : c.readFlag? flag = some d) :
    c.Advances d :=
  ⟨['-', flag], rest_of_readFlag? h⟩

theorem Symbol.advances_of_read {κ : Type} {symbol : Symbol κ} {context : Context} {c d : Cursor}
    {t u : Trail} (h : symbol.read context c t = .ok (some (d, u))) : c.Advances d := by
  simp only [Symbol.read] at h
  split at h
  · simp only [Except.ok.injEq, Option.some.injEq, Prod.mk.injEq] at h
    exact h.1 ▸ c.advances_skipBytes _
  · split at h
    · rename_i value after hr
      simp only [Except.ok.injEq, Option.some.injEq, Prod.mk.injEq] at h
      exact h.1 ▸ ArgumentType.advances_of_read hr
    · simp at h
  · simp only [Except.ok.injEq, Option.map_eq_some_iff, Prod.mk.injEq] at h
    obtain ⟨after, hr, rfl, -⟩ := h
    exact Cursor.advances_of_readFlag? hr

namespace Tree

variable {κ : Type} {tree : Tree κ} {context : Context} {child : NodeId} {c : Cursor} {t : Trail}

/-- A step is to a child that may be used and whose symbol can be read, and it goes on behind a
separator or at the end of the line. -/
theorem exists_read_of_step {s : Step κ} (h : tree.step context child c t = .ok (some s)) :
    tree.node? child = some s.node ∧ s.node.canUse context = true ∧
      ∃ symbol after, s.node.symbol? = some symbol ∧
        symbol.read context c t = .ok (some (after, s.trail)) ∧
        after.nextPart? = some s.cursor := by
  unfold step at h
  split at h
  · cases h
  rename_i node hn
  split at h
  · cases h
  rename_i symbol hs
  split at h
  · rename_i hu
    split at h
    · cases h
    · cases h
    rename_i after trail hr
    split at h
    · rename_i next hp
      obtain rfl := Option.some.inj (Except.ok.inj h)
      exact ⟨node_eq_ok.1 hn, hu, symbol, after, hs, hr, hp⟩
    · cases h
  · cases h

/-- A step from a place with text left to read leaves less of it. -/
theorem length_rest_lt_of_step {s : Step κ} (h : tree.step context child c t = .ok (some s))
    (hc : c.rest ≠ []) : s.cursor.rest.length < c.rest.length := by
  obtain ⟨-, -, symbol, after, -, hr, hp⟩ := exists_read_of_step h
  have hle := (Symbol.advances_of_read hr).length_rest_le
  have hpos := List.length_pos_iff.2 hc
  rcases Cursor.rest_of_nextPart? hp with hnil | hlt
  · simpa [hnil] using hpos
  · omega

end Tree

/-! ### Matching -/

namespace Tree

variable {κ : Type}

mutual

/-- The match below a node, from a place on. -/
def matchFrom (tree : Tree κ) (context : Context) (id : NodeId) (anchor : Option NodeId)
    (c : Cursor) (t : Trail) : Except Failure (Option Match) :=
  match tree.node id with
  | .error violation => .error (.violation violation)
  | .ok node =>
    let here : Option Match := if node.isChild then some ⟨id, c, t⟩ else none
    if h : c.rest ≠ [] then
      tree.matchAny context anchor c h t here none (node.relevantChildren c)
    else .ok here
termination_by (c.rest.length, 1, 0)

/-- The best match by one of some children, or the best one so far if it is better. If there is none
at all, the match ends `here`. -/
def matchAny (tree : Tree κ) (context : Context) (anchor : Option NodeId) (c : Cursor)
    (readable : c.rest ≠ []) (t : Trail) (here best : Option Match) :
    List NodeId → Except Failure (Option Match)
  | [] => .ok (best.or here)
  | child :: children =>
    match _h : tree.step context child c t with
    | .error failure => .error failure
    | .ok none => tree.matchAny context anchor c readable t here best children
    | .ok (some s) =>
      match s.node.redirect? with
      | some target => tree.matchFrom context target (some target) s.cursor s.trail
      | none =>
        let anchorBelow := if s.node.isFlag then anchor else some child
        if s.cursor.readable then
          match tree.matchFrom context child anchorBelow s.cursor s.trail with
          | .error failure => .error failure
          | .ok found =>
            tree.matchAny context anchor c readable t here (Match.better best found) children
        else
          let found : Match := ⟨anchorBelow.getD child, s.cursor, s.trail⟩
          tree.matchAny context anchor c readable t here (Match.better best (some found)) children
termination_by children => (c.rest.length, 0, children.length)
decreasing_by
  all_goals simp_wf
  all_goals first
    | exact Prod.Lex.right _ (Prod.Lex.right _ (by omega))
    | exact Prod.Lex.left _ _ (length_rest_lt_of_step _h readable)

end

/-- The match of a line from a place on. -/
def matchAt (tree : Tree κ) (context : Context) (c : Cursor) : Except Failure (Option Match) :=
  tree.matchFrom context root none c (.start context c)

/-! ### One child after the other -/

section Unfold

variable {tree : Tree κ} {context : Context} {anchor : Option NodeId} {c : Cursor}
  {readable : c.rest ≠ []} {t : Trail} {here best : Option Match} {child : NodeId}
  {children : List NodeId}

theorem matchAny_nil :
    tree.matchAny context anchor c readable t here best [] = .ok (best.or here) := by
  rw [matchAny]

theorem matchAny_cons_of_error {failure : Failure}
    (h : tree.step context child c t = .error failure) :
    tree.matchAny context anchor c readable t here best (child :: children) = .error failure := by
  rw [matchAny]
  split <;> simp_all

theorem matchAny_cons_of_none (h : tree.step context child c t = .ok none) :
    tree.matchAny context anchor c readable t here best (child :: children) =
      tree.matchAny context anchor c readable t here best children := by
  rw [matchAny]
  split <;> simp_all

theorem matchAny_cons_of_redirect {s : Step κ} {target : NodeId}
    (h : tree.step context child c t = .ok (some s)) (hr : s.node.redirect? = some target) :
    tree.matchAny context anchor c readable t here best (child :: children) =
      tree.matchFrom context target (some target) s.cursor s.trail := by
  rw [matchAny]
  split <;> simp_all

/-- What is found by way of a child that has matched and has no redirect. -/
def resume (tree : Tree κ) (context : Context) (anchor : Option NodeId) (child : NodeId)
    (s : Step κ) : Except Failure (Option Match) :=
  let anchorBelow := if s.node.isFlag then anchor else some child
  if s.cursor.readable then tree.matchFrom context child anchorBelow s.cursor s.trail
  else .ok (some ⟨anchorBelow.getD child, s.cursor, s.trail⟩)

theorem matchAny_cons_of_resume {s : Step κ} (h : tree.step context child c t = .ok (some s))
    (hr : s.node.redirect? = none) :
    tree.matchAny context anchor c readable t here best (child :: children) =
      match tree.resume context anchor child s with
      | .error failure => .error failure
      | .ok found =>
        tree.matchAny context anchor c readable t here (Match.better best found) children := by
  rw [matchAny]
  split <;> simp_all
  unfold resume
  cases s.cursor.readable <;> rfl

end Unfold

end Tree

end CommandGrammar
