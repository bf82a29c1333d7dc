import CommandGrammar.Proofs.Grammar.Redirect
import CommandGrammar.Proofs.Match.Route

/-!
# Searches within a search

The search below a node starts further ones: below a child that has matched, or below the target of
the child's redirect (`Tree.Starts`). This module says what one search does by itself and which
others it asks. A search comes back with the node itself, with a leaf, with a refusal of its own, or
with what one of the others came back with (`Tree.yields_search`).

Main statement: searches are not nested without end, wherever the redirects lead
(`Tree.nesting_le_of_reachable`). The offset grows with every one of them, so there are no more than
one for each byte still to read, and one for the first. Read on a stack with room for so many, every
line has an answer.

That the offset grows needs nothing of an argument type but that it does not move backward. A part
may be empty; but then a separator must follow it, which is passed.
-/

namespace CommandGrammar

open Relation

variable {κ : Type}

/-- A search: the node below which it goes on, and what it is given on the way there. -/
structure Search where
  /-- The node. -/
  node : NodeId
  /-- The last piece before the flags at hand. -/
  anchor : Option NodeId
  /-- The place from which it reads. -/
  cursor : Cursor
  /-- What was collected. -/
  trail : Trail

namespace Search

/-- The search for the match of a line from a place on. -/
def start (context : Context) (c : Cursor) : Search := ⟨Tree.root, none, c, .start context c⟩

/-- The match that ends at the node itself. -/
def here (q : Search) : Match := ⟨q.node, q.cursor, q.trail⟩

/-- The anchor behind a child that has matched. -/
def anchorBelow (q : Search) (child : NodeId) (s : Step κ) : Option NodeId :=
  if s.node.isFlag then q.anchor else some child

/-- The match that ends at a child. -/
def leaf (q : Search) (child : NodeId) (s : Step κ) : Match :=
  ⟨(q.anchorBelow child s).getD child, s.cursor, s.trail⟩

/-- The search below a child. -/
def below (q : Search) (child : NodeId) (s : Step κ) : Search :=
  ⟨child, q.anchorBelow child s, s.cursor, s.trail⟩

/-- The search below the target of a redirect. -/
def atTarget (target : NodeId) (s : Step κ) : Search := ⟨target, some target, s.cursor, s.trail⟩

end Search

namespace Tree

variable {tree : Tree κ} {context : Context} {q p : Search} {child : NodeId} {failure : Failure}

/-- What a search comes back with. -/
def search (tree : Tree κ) (context : Context) (q : Search) : Except Failure (Option Match) :=
  tree.matchFrom context q.node q.anchor q.cursor q.trail

/-! ### What a search does by itself -/

/-- A search looks at a child. It does so only if there is text left to read. -/
structure Tries (tree : Tree κ) (q : Search) (child : NodeId) : Prop where
  /-- There is text left to read. -/
  readable : q.cursor.rest ≠ []
  /-- The next part of it may match the child. -/
  relevant : ∃ node, tree.node? q.node = some node ∧ child ∈ node.relevantChildren q.cursor

/-- A search starts another one by way of a child that has matched. -/
inductive Starts (tree : Tree κ) (context : Context) (q : Search) : NodeId → Search → Prop where
  /-- The child has no redirect, and there is text left for what is below it. -/
  | below {child : NodeId} {s : Step κ} : tree.Tries q child →
      tree.step context child q.cursor q.trail = .ok (some s) → s.node.redirect? = none →
      s.cursor.readable = true → Starts tree context q child (q.below child s)
  /-- The child has a redirect. -/
  | redirect {child target : NodeId} {s : Step κ} : tree.Tries q child →
      tree.step context child q.cursor q.trail = .ok (some s) → s.node.redirect? = some target →
      Starts tree context q child (.atTarget target s)

/-- A search can come back with a result: by itself, or since another one has. -/
inductive Yields (tree : Tree κ) (context : Context) (q : Search) :
    Except Failure (Option Match) → Prop where
  /-- The node is not there. -/
  | missing {violation : Violation} : tree.node q.node = .error violation →
      Yields tree context q (.error (.violation violation))
  /-- The node is the root, and nothing has matched. -/
  | unmatched {node : Node κ} : tree.node? q.node = some node → node.isChild = false →
      Yields tree context q (.ok none)
  /-- The match is the node itself. -/
  | here {node : Node κ} : tree.node? q.node = some node → node.isChild = true →
      Yields tree context q (.ok (some q.here))
  /-- A child is refused. -/
  | refused {child : NodeId} {failure : Failure} : tree.Tries q child →
      tree.step context child q.cursor q.trail = .error failure →
      Yields tree context q (.error failure)
  /-- A child matches and uses up the line. -/
  | leaf {child : NodeId} {s : Step κ} : tree.Tries q child →
      tree.step context child q.cursor q.trail = .ok (some s) → s.node.redirect? = none →
      s.cursor.readable = false → Yields tree context q (.ok (some (q.leaf child s)))
  /-- A search that was started has come back with it. -/
  | nested {child : NodeId} {p : Search} {result : Except Failure (Option Match)} :
      tree.Starts context q child p → tree.search context p = result →
      Yields tree context q result

/-- A search is started below a child without a redirect, unless the child uses up the line. -/
theorem yields_resume {s : Step κ} (ht : tree.Tries q child)
    (hs : tree.step context child q.cursor q.trail = .ok (some s)) (hr : s.node.redirect? = none) :
    tree.Yields context q (tree.resume context q.anchor child s) := by
  unfold resume
  cases he : s.cursor.readable with
  | true => exact .nested (.below ht hs hr he) rfl
  | false => exact .leaf ht hs hr he

/-- Trying children gives nothing but what was found before and what one of them gives. -/
theorem yields_matchAny {readable : q.cursor.rest ≠ []} {here best : Option Match}
    {children : List NodeId} (hc : ∀ child ∈ children, tree.Tries q child)
    (hhere : tree.Yields context q (.ok here))
    (hbest : ∀ m, best = some m → tree.Yields context q (.ok (some m))) :
    tree.Yields context q
      (tree.matchAny context q.anchor q.cursor readable q.trail here best children) := by
  induction children generalizing best with
  | nil =>
    rw [matchAny_nil]
    cases best with
    | none => exact hhere
    | some m => exact hbest m rfl
  | cons child children ih =>
    have htries := hc child List.mem_cons_self
    have hrest : ∀ other ∈ children, tree.Tries q other := fun other ho =>
      hc other (List.mem_cons_of_mem child ho)
    cases hs : tree.step context child q.cursor q.trail with
    | error failure =>
      rw [matchAny_cons_of_error hs]
      exact .refused htries hs
    | ok result =>
      cases result with
      | none =>
        rw [matchAny_cons_of_none hs]
        exact ih hrest hbest
      | some s =>
        cases hr : s.node.redirect? with
        | some target =>
          rw [matchAny_cons_of_redirect hs hr]
          exact .nested (.redirect htries hs hr) rfl
        | none =>
          rw [matchAny_cons_of_resume hs hr]
          have hyields := yields_resume htries hs hr
          cases hf : tree.resume context q.anchor child s with
          | error failure =>
            rw [hf] at hyields
            exact hyields
          | ok found =>
            refine ih hrest fun m hm => ?_
            rcases Match.eq_of_better_eq_some hm with hm | rfl
            · exact hbest m hm
            · exact hf ▸ hyields

/-- **What a search comes back with**, it has by itself or from a search that it started. -/
theorem yields_search (tree : Tree κ) (context : Context) (q : Search) :
    tree.Yields context q (tree.search context q) := by
  unfold search
  rw [matchFrom]
  cases hn : tree.node q.node with
  | error violation => exact .missing hn
  | ok node =>
    have hn := node_eq_ok.1 hn
    have hhere : tree.Yields context q (.ok (if node.isChild then some q.here else none)) := by
      cases hc : node.isChild with
      | true => exact .here hn hc
      | false => exact .unmatched hn hc
    simp only
    split
    · rename_i readable
      refine yields_matchAny (fun child hm => ⟨readable, node, hn, hm⟩) hhere fun m hm => ?_
      cases hm
    · exact hhere

/-! ### One search after the other -/

/-- A search starts another one. -/
def Nests (tree : Tree κ) (context : Context) (q p : Search) : Prop :=
  ∃ child, tree.Starts context q child p

/-- The child by way of which a search is started has matched, and reading goes on from there. -/
theorem Starts.exists_step (h : tree.Starts context q child p) :
    tree.Tries q child ∧ ∃ s, tree.step context child q.cursor q.trail = .ok (some s) ∧
      p.cursor = s.cursor ∧ p.trail = s.trail := by
  cases h with
  | below ht hs _ _ => exact ⟨ht, _, hs, rfl, rfl⟩
  | redirect ht hs _ => exact ⟨ht, _, hs, rfl, rfl⟩

theorem advances_of_step {c : Cursor} {t : Trail} {s : Step κ}
    (h : tree.step context child c t = .ok (some s)) : c.Advances s.cursor := by
  obtain ⟨-, -, symbol, after, -, hr, hp⟩ := exists_read_of_step h
  exact (Symbol.advances_of_read hr).trans (Cursor.gap_of_nextPart? hp).advances

theorem Nests.advances (h : tree.Nests context q p) : q.cursor.Advances p.cursor := by
  obtain ⟨child, h⟩ := h
  obtain ⟨-, s, hs, hc, -⟩ := h.exists_step
  exact hc ▸ advances_of_step hs

theorem Nests.length_rest_lt (h : tree.Nests context q p) :
    p.cursor.rest.length < q.cursor.rest.length := by
  obtain ⟨child, h⟩ := h
  obtain ⟨ht, s, hs, hc, -⟩ := h.exists_step
  exact hc ▸ length_rest_lt_of_step hs ht.readable

/-- **The offset grows with every search that is started.** -/
theorem Nests.index_lt (h : tree.Nests context q p) : q.cursor.index < p.cursor.index := by
  obtain ⟨read, hrest, hconsumed⟩ := h.advances
  have hlt := h.length_rest_lt
  have hbytes := length_le_byteLength read
  rw [hrest, List.length_append] at hlt
  rw [Cursor.index, Cursor.index, hconsumed, byteLength_append]
  omega

/-- What holds of a search whenever it holds of those that it starts, holds of every search. -/
theorem search_induction (tree : Tree κ) (context : Context) {motive : Search → Prop}
    (search : ∀ q, (∀ p, tree.Nests context q p → motive p) → motive q) (q : Search) :
    motive q := by
  induction hlen : q.cursor.rest.length using Nat.strongRecOn generalizing q with
  | ind n ih => exact search q fun p hp => ih _ (hlen ▸ hp.length_rest_lt) p rfl

theorem pairwise_index_lt {chain : List Search} (h : chain.IsChain (tree.Nests context)) :
    (chain.map fun q => q.cursor.index).Pairwise (· < ·) := by
  rw [← List.isChain_iff_pairwise, List.isChain_map]
  exact h.imp fun _ _ hn => hn.index_lt

/-- No more searches are nested than there are bytes still to read, and one. -/
theorem length_le_of_isChain {chain : List Search}
    (h : (q :: chain).IsChain (tree.Nests context)) :
    (q :: chain).length ≤ byteLength q.cursor.line - q.cursor.index + 1 := by
  induction chain generalizing q with
  | nil => exact Nat.le_add_left 1 _
  | cons p chain ih =>
    obtain ⟨hn, hp⟩ := List.isChain_cons_cons.1 h
    have hlength := ih hp
    have hlt := hn.index_lt
    have hle := p.cursor.index_le
    rw [hn.advances.line_eq] at hlength hle
    rw [List.length_cons]
    omega

/-! ### Searching with limited room -/

/-- Trying children, where `answer` says what the searches come back with that are started. There is
no result if one of them has none. -/
def searchAmong (tree : Tree κ) (context : Context)
    (answer : Search → Option (Except Failure (Option Match))) (q : Search)
    (here best : Option Match) : List NodeId → Option (Except Failure (Option Match))
  | [] => some (.ok (best.or here))
  | child :: children =>
    match tree.step context child q.cursor q.trail with
    | .error failure => some (.error failure)
    | .ok none => tree.searchAmong context answer q here best children
    | .ok (some s) =>
      match s.node.redirect? with
      | some target => answer (.atTarget target s)
      | none =>
        if s.cursor.readable then
          match answer (q.below child s) with
          | none => none
          | some (.error failure) => some (.error failure)
          | some (.ok found) =>
            tree.searchAmong context answer q here (Match.better best found) children
        else
          tree.searchAmong context answer q here (Match.better best (some (q.leaf child s))) children

/-- One search by itself, where `answer` says what the searches come back with that it starts. -/
def searchOnce (tree : Tree κ) (context : Context)
    (answer : Search → Option (Except Failure (Option Match))) (q : Search) :
    Option (Except Failure (Option Match)) :=
  match tree.node q.node with
  | .error violation => some (.error (.violation violation))
  | .ok node =>
    let here : Option Match := if node.isChild then some q.here else none
    if q.cursor.readable then
      tree.searchAmong context answer q here none (node.relevantChildren q.cursor)
    else some (.ok here)

/-- A search on a stack with room for `room` searches, each started by the one before. There is no
result if it overflows. -/
def searchWithin (tree : Tree κ) (context : Context) : Nat → Search →
    Option (Except Failure (Option Match))
  | 0, _ => none
  | room + 1, q => tree.searchOnce context (tree.searchWithin context room) q

section Answer

variable {answer answer' : Search → Option (Except Failure (Option Match))}

theorem searchAmong_congr {here best : Option Match} {children : List NodeId}
    (hc : ∀ child ∈ children, tree.Tries q child)
    (h : ∀ p, tree.Nests context q p → answer p = answer' p) :
    tree.searchAmong context answer q here best children =
      tree.searchAmong context answer' q here best children := by
  induction children generalizing best with
  | nil => rfl
  | cons child children ih =>
    have htries := hc child List.mem_cons_self
    have hrest : ∀ other ∈ children, tree.Tries q other := fun other ho =>
      hc other (List.mem_cons_of_mem child ho)
    rw [searchAmong, searchAmong]
    cases hs : tree.step context child q.cursor q.trail with
    | error failure => rfl
    | ok result =>
      cases result with
      | none => exact ih hrest
      | some s =>
        simp only
        cases hr : s.node.redirect? with
        | some target => exact h _ ⟨child, .redirect htries hs hr⟩
        | none =>
          cases he : s.cursor.readable with
          | true =>
            simp only [↓reduceIte, h _ ⟨child, .below htries hs hr he⟩]
            rcases answer' (q.below child s) with _ | _ | found
            · rfl
            · rfl
            · exact ih hrest
          | false => exact ih hrest

/-- **A search depends on nothing but what those come back with that it starts.** -/
theorem searchOnce_congr (h : ∀ p, tree.Nests context q p → answer p = answer' p) :
    tree.searchOnce context answer q = tree.searchOnce context answer' q := by
  unfold searchOnce
  cases hn : tree.node q.node with
  | error violation => rfl
  | ok node =>
    simp only
    split
    · rename_i hreadable
      have hrest : q.cursor.rest ≠ [] := by simpa [Cursor.readable] using hreadable
      exact searchAmong_congr (fun child hm => ⟨hrest, node, node_eq_ok.1 hn, hm⟩) h
    · rfl

end Answer

theorem searchAmong_eq_matchAny {here best : Option Match} {children : List NodeId}
    (readable : q.cursor.rest ≠ []) :
    tree.searchAmong context (fun p => some (tree.search context p)) q here best children =
      some (tree.matchAny context q.anchor q.cursor readable q.trail here best children) := by
  induction children generalizing best with
  | nil => rw [searchAmong, matchAny_nil]
  | cons child children ih =>
    rw [searchAmong]
    cases hs : tree.step context child q.cursor q.trail with
    | error failure => rw [matchAny_cons_of_error hs]
    | ok result =>
      cases result with
      | none =>
        rw [matchAny_cons_of_none hs]
        exact ih
      | some s =>
        cases hr : s.node.redirect? with
        | some target =>
          rw [matchAny_cons_of_redirect hs hr]
          simp only [hr]
          rfl
        | none =>
          rw [matchAny_cons_of_resume hs hr]
          simp only [hr, resume, ih]
          cases s.cursor.readable with
          | true =>
            simp only [↓reduceIte]
            rw [show tree.search context (q.below child s) = tree.matchFrom context child
              (if s.node.isFlag then q.anchor else some child) s.cursor s.trail from rfl]
            cases tree.matchFrom context child (if s.node.isFlag then q.anchor else some child)
              s.cursor s.trail <;> rfl
          | false => rfl

/-- A search is what it does by itself with what those come back with that it starts. -/
theorem searchOnce_search (tree : Tree κ) (context : Context) (q : Search) :
    tree.searchOnce context (fun p => some (tree.search context p)) q =
      some (tree.search context q) := by
  unfold searchOnce search
  rw [matchFrom]
  cases tree.node q.node with
  | error violation => rfl
  | ok node =>
    by_cases hrest : q.cursor.rest = []
    · simp [hrest, Cursor.readable, Search.here]
    · have hreadable : q.cursor.readable = true := by simpa [Cursor.readable] using hrest
      simp only [hreadable, ↓reduceIte, ne_eq, hrest, not_false_eq_true, ↓reduceDIte]
      exact searchAmong_eq_matchAny hrest

/-- **Room for one search more than there are bytes still to read is enough.** -/
theorem searchWithin_eq {room : Nat}
    (h : byteLength q.cursor.line - q.cursor.index < room) :
    tree.searchWithin context room q = some (tree.search context q) := by
  induction room generalizing q with
  | zero => exact absurd h (Nat.not_lt_zero _)
  | succ room ih =>
    rw [searchWithin, ← searchOnce_search]
    refine searchOnce_congr fun p hn => ih ?_
    have hlt := hn.index_lt
    have hle := p.cursor.index_le
    rw [hn.advances.line_eq] at hle ⊢
    omega

/-- **Searches are not nested without end.** In a grammar that can be built the offset grows from
each search to the one that it starts, wherever the redirects lead, so no more are nested than there
are bytes from the place on, and one. With room for so many, every line has an answer from every
place on; and if the redirects stay in the grammar, the answer is what was found or what is wrong
with the line. -/
theorem nesting_le_of_reachable (h : tree.Reachable) (hstay : tree.RedirectsStay)
    (context : Context) :
    (∀ q chain, (q :: chain).IsChain (tree.Nests context) →
      ((q :: chain).map fun p => p.cursor.index).Pairwise (· < ·) ∧
      (q :: chain).length ≤ byteLength q.cursor.line - q.cursor.index + 1) ∧
    (∀ c room, byteLength c.line - c.index + 1 ≤ room →
      tree.searchWithin context room (.start context c) = some (tree.matchAt context c)) ∧
    ∀ c, (∃ found, tree.matchAt context c = .ok found) ∨
      ∃ e, tree.matchAt context c = .error (.parse e) := by
  refine ⟨fun q chain hc => ⟨pairwise_index_lt hc, length_le_of_isChain hc⟩, ?_, fun c => ?_⟩
  · intro c room hroom
    exact searchWithin_eq (q := .start context c) hroom
  · cases hm : tree.matchAt context c with
    | ok found => exact .inl ⟨found, rfl⟩
    | error failure =>
      obtain ⟨e, rfl⟩ := exists_parse_of_matchFrom h.wellFormed hstay h.wellFormed.root hm
      exact .inr ⟨e, rfl⟩

/-- Below `a` words without end, each of which leads back to `a`; and `b`, which leads to itself. -/
def circular : Except Violation (Tree Unit) := do
  let (tree, a) ← Tree.empty.add root ⟨.piece (.literal "a") {}, none, []⟩
  let word : Symbol Unit := .piece (.argument ⟨⟨"word", 0⟩, .text .word⟩) { redirect := some a }
  let (tree, _) ← tree.add a ⟨word, none, []⟩
  let (tree, b) ← tree.add root ⟨.piece (.literal "b") {}, none, []⟩
  let (tree, _) ← tree.add root ⟨.piece (.literal "b") { redirect := some b }, none, []⟩
  return tree

theorem reachable_of_circular {tree : Tree Unit} (h : circular = .ok tree) : tree.Reachable := by
  obtain ⟨⟨t₁, a⟩, h₁, h⟩ := exists_of_bind_eq_ok h
  obtain ⟨⟨t₂, _⟩, h₂, h⟩ := exists_of_bind_eq_ok h
  obtain ⟨⟨t₃, b⟩, h₃, h⟩ := exists_of_bind_eq_ok h
  obtain ⟨⟨t₄, _⟩, h₄, h⟩ := exists_of_bind_eq_ok h
  cases h
  have leaf := fun symbol : Symbol Unit => Spec.drafted_of_no_children symbol none
  exact (((ReflTransGen.refl.tail (.add (leaf _) h₁)).tail (.add (leaf _) h₂)).tail
    (.add (leaf _) h₃)).tail (.add (leaf _) h₄)

/-- The second word is empty. Five searches are nested, and seven would fit. -/
theorem nesting_le_of_reachable_circular :
    ∃ (tree : Tree Unit) (p : Search), circular = .ok tree ∧ tree.Reachable ∧
      tree.redirect? 2 = some 1 ∧ tree.redirect? 3 = some 3 ∧ tree.RedirectsStay ∧
      [.start .empty (.atStart "a 1  2"), p].IsChain (tree.Nests .empty) ∧
      (Cursor.atStart "a 1  2").index < p.cursor.index ∧
      (tree.searchWithin .empty 4 (.start .empty (.atStart "a 1  2"))).isNone = true ∧
      tree.searchWithin .empty 7 (.start .empty (.atStart "a 1  2")) =
        some (tree.matchAt .empty (.atStart "a 1  2")) ∧
      (tree.matchAt .empty (.atStart "a 1  2")).map (Option.map Match.node) = .ok (some 1) := by
  have hrun : circular.map (fun tree => decide (tree.redirect? 2 = some 1 ∧
      tree.redirect? 3 = some 3 ∧ tree.RedirectsLead)) = .ok true := by
    decide +kernel
  have hstep : circular.map (fun tree =>
      (tree.step .empty 1 (.atStart "a 1  2") (.start .empty (.atStart "a 1  2"))).map
        (Option.map fun s => (s.node.redirect?, s.cursor.readable))) =
          .ok (.ok (some (none, true))) := by
    cbv
  have hroot : circular.map (fun tree => (tree.node? root).map fun node =>
      node.relevantChildren (.atStart "a 1  2")) = .ok (some [1]) := by
    cbv
  have hmatch : circular.map (fun tree =>
      ((tree.searchWithin .empty 4 (.start .empty (.atStart "a 1  2"))).isNone,
        (tree.matchAt .empty (.atStart "a 1  2")).map (Option.map Match.node))) =
          .ok (true, .ok (some 1)) := by
    cbv
  obtain ⟨tree, h, hd⟩ := exists_of_map_eq_ok hrun
  obtain ⟨hword, hself, hlead⟩ := of_decide_eq_true hd
  rw [h] at hstep hroot hmatch
  obtain ⟨s?, hs, hmap⟩ := exists_of_map_eq_ok (Except.ok.inj hstep)
  obtain ⟨s, rfl, he⟩ := Option.map_eq_some_iff.1 hmap
  obtain ⟨hr, hreadable⟩ := Prod.mk.inj he
  obtain ⟨node, hn, hchildren⟩ := Option.map_eq_some_iff.1 (Except.ok.inj hroot)
  obtain ⟨hnone, hfound⟩ := Prod.mk.inj (Except.ok.inj hmatch)
  have hreach := reachable_of_circular h
  have htries : tree.Tries (.start .empty (.atStart "a 1  2")) 1 :=
    ⟨by decide, node, hn, hchildren ▸ List.mem_singleton_self 1⟩
  have hchain : [.start .empty (.atStart "a 1  2"), _].IsChain (tree.Nests .empty) :=
    .cons_cons ⟨1, .below htries hs hr hreadable⟩ (.singleton _)
  obtain ⟨hnested, hroom, -⟩ := nesting_le_of_reachable hreach hlead.stay .empty
  have hlt := (List.pairwise_cons.1 (hnested _ _ hchain).1).1 _ (List.mem_singleton_self _)
  exact ⟨tree, _, h, hreach, hword, hself, hlead.stay, hchain, hlt, hnone,
    hroom (.atStart "a 1  2") 7 (by decide), hfound⟩

end Tree

end CommandGrammar
