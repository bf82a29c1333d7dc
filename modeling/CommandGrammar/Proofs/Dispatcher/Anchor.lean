import CommandGrammar.Proofs.Dispatcher.Outcome
import CommandGrammar.Proofs.Match.Nesting

/-!
# Where a line ends behind flags

A search passes nodes on its way to a match: the children by way of which one search starts the
next, and the leaf. This module says by way of which nodes a match is found (`Tree.FindsBy`).

Main statement: a match that uses up the line is never at a flag, however many of them come at the
end, also below each other and behind an alias (`Dispatcher.endsAtLastPiece_of_isComplete`). It is
at the last literal or argument on the way, or at the target of its redirect.

The proof is an induction on the way. What carries it is that the anchor of a search is where the
last literal or argument before it leads (`Tree.FindsBy.node_eq`): a piece becomes the anchor
itself, a redirect makes its target the anchor, and a flag leaves the anchor as it is.
-/

namespace CommandGrammar

variable {κ : Type}

namespace Tree

variable {tree : Tree κ} {context : Context} {q : Search} {child last : NodeId}
  {path : List NodeId} {m : Match}

/-! ### The way to a match -/

/-- A search comes back with a match that it has found by way of some nodes. -/
inductive FindsBy (tree : Tree κ) (context : Context) : Search → List NodeId → Match → Prop where
  /-- The match is the node of the search itself. -/
  | here {q : Search} {node : Node κ} : tree.search context q = .ok (some q.here) →
      tree.node? q.node = some node → node.isChild = true → FindsBy tree context q [] q.here
  /-- A child matches and uses up the line. -/
  | leaf {q : Search} {child : NodeId} {s : Step κ} :
      tree.search context q = .ok (some (q.leaf child s)) → tree.Tries q child →
      tree.step context child q.cursor q.trail = .ok (some s) → s.node.redirect? = none →
      s.cursor.readable = false → FindsBy tree context q [child] (q.leaf child s)
  /-- A child matches, and the search that is started there comes back with the match. -/
  | nested {q p : Search} {child : NodeId} {path : List NodeId} {m : Match} :
      tree.search context q = .ok (some m) → tree.Starts context q child p →
      FindsBy tree context p path m → FindsBy tree context q (child :: path) m

/-- There is a way to every match. -/
theorem exists_findsBy (h : tree.search context q = .ok (some m)) :
    ∃ path, tree.FindsBy context q path m := by
  induction q using tree.search_induction context with
  | search q ih =>
    have hy := tree.yields_search context q
    rw [h] at hy
    cases hy with
    | here hn hc => exact ⟨[], .here h hn hc⟩
    | @leaf child s ht hs hr he => exact ⟨[child], .leaf h ht hs hr he⟩
    | @nested child p _ hp hresult =>
      obtain ⟨path, hpath⟩ := ih p ⟨child, hp⟩ hresult
      exact ⟨child :: path, .nested h hp hpath⟩

/-- The search behind a child goes on below it, or below what it redirects to. -/
theorem Starts.node_eq {p : Search} (h : tree.Starts context q child p) :
    p.node = tree.onward child := by
  cases h with
  | below _ hs hr _ =>
    exact (onward_of_redirect?_none ((redirect?_of_node? (exists_read_of_step hs).1).trans hr)).symm
  | redirect _ hs hr =>
    exact (onward_of_redirect? ((redirect?_of_node? (exists_read_of_step hs).1).trans hr)).symm

/-- The nodes of a way are visited one after the other, each where there is text left to read. -/
theorem FindsBy.exists_visits (h : tree.FindsBy context q path m) (hw : tree.WellFormed) :
    ∃ visits : List Visit, visits.map Visit.id = path ∧
      tree.Path context q.node q.cursor visits m.cursor ∧ m.trail = q.trail.recordAll visits ∧
      ∀ v ∈ visits, v.start.rest ≠ [] := by
  induction h with
  | @here q node _ _ _ => exact ⟨[], rfl, .nil _ _, rfl, fun v hv => absurd hv List.not_mem_nil⟩
  | @leaf q child s _ ht hs hr _ =>
    obtain ⟨hrest, node, hn, hm⟩ := ht
    obtain ⟨v, rfl, hstart, hc, hv, hg, htrail, -⟩ := exists_visits_of_step hw hn hm hs
    rw [← hstart] at hrest ⊢
    refine ⟨[v], rfl, .cons hc hv hg (.nil _ _), htrail, fun w hw => ?_⟩
    rwa [List.mem_singleton.1 hw]
  | @nested q p child path m _ hp _ ih =>
    obtain ⟨⟨hrest, node, hn, hm⟩, s, hs, hcursor, hnext⟩ := hp.exists_step
    obtain ⟨v, rfl, hstart, hc, hv, hg, htrail, -⟩ := exists_visits_of_step hw hn hm hs
    obtain ⟨visits, rfl, hpath, hrecords, hreadable⟩ := ih
    rw [hp.node_eq, hcursor] at hpath
    rw [hnext, htrail] at hrecords
    rw [← hstart] at hrest ⊢
    exact ⟨v :: visits, rfl, .cons hc hv hg hpath, hrecords, List.forall_mem_cons.2 ⟨hrest, hreadable⟩⟩

/-! ### Its last piece -/

/-- The last literal or argument among some nodes. -/
def lastPiece? (tree : Tree κ) (path : List NodeId) : Option NodeId :=
  (path.filter tree.isTarget).getLast?

theorem lastPiece?_cons_of_isTarget (h : tree.isTarget child = true) (path : List NodeId) :
    tree.lastPiece? (child :: path) = some ((tree.lastPiece? path).getD child) := by
  rw [lastPiece?, List.filter_cons_of_pos h, List.getLast?_cons]
  rfl

theorem lastPiece?_cons_of_not_isTarget (h : tree.isTarget child = false) (path : List NodeId) :
    tree.lastPiece? (child :: path) = tree.lastPiece? path := by
  rw [lastPiece?, List.filter_cons_of_neg (by simp [h])]
  rfl

theorem isTarget_of_lastPiece? (h : tree.lastPiece? path = some last) :
    tree.isTarget last = true :=
  (List.mem_filter.1 (List.mem_of_getLast? h)).2

/-- Every node that matches is a literal or an argument, or a flag. -/
theorem isTarget_of_step {c : Cursor} {t : Trail} {s : Step κ}
    (h : tree.step context child c t = .ok (some s)) :
    tree.isTarget child = !s.node.isFlag := by
  obtain ⟨hn, -, symbol, -, hs, -, -⟩ := exists_read_of_step h
  rw [isTarget, hn, Option.any_some, Node.ending?, Node.isFlag, hs]
  cases symbol <;> rfl

/-- Behind a piece that has matched, it or what it redirects to is the anchor; behind a flag the
anchor is the one before. -/
theorem Starts.anchor_eq {p : Search} (h : tree.Starts context q child p) :
    p.anchor = if tree.isTarget child then some (tree.onward child) else q.anchor := by
  cases h with
  | @below s _ hs hr _ =>
    rw [isTarget_of_step hs,
      onward_of_redirect?_none ((redirect?_of_node? (exists_read_of_step hs).1).trans hr)]
    unfold Search.below Search.anchorBelow
    cases s.node.isFlag <;> rfl
  | redirect _ hs hr =>
    rw [isTarget_of_step hs, isFlag_of_redirect? hr,
      onward_of_redirect? ((redirect?_of_node? (exists_read_of_step hs).1).trans hr)]
    rfl

/-- A search from the end of the line is one from its anchor. -/
theorem Starts.readable_or {p : Search} (h : tree.Starts context q child p) :
    p.cursor.readable = true ∨ p.anchor = some p.node := by
  cases h with
  | below _ _ _ he => exact .inl he
  | redirect => exact .inr rfl

/-- **A match that uses up the line is where the last piece on the way leads**, or at the anchor of
the search if there is none. -/
theorem FindsBy.node_eq (h : tree.FindsBy context q path m) (hm : m.isComplete = true)
    (hq : q.cursor.readable = true ∨ q.anchor = some q.node)
    (hl : ((tree.lastPiece? path).map tree.onward).or q.anchor = some last) :
    m.node = last := by
  induction h with
  | @here q node _ _ _ =>
    have hreadable : q.cursor.readable = false := by
      simpa [Match.isComplete, Search.here] using hm
    rcases hq with hq | hq
    · rw [hreadable] at hq
      cases hq
    · exact Option.some.inj (hq.symm.trans hl)
  | @leaf q child s _ _ hs hr _ =>
    have honward := onward_of_redirect?_none
      ((redirect?_of_node? (exists_read_of_step hs).1).trans hr)
    have ht := isTarget_of_step hs
    unfold Search.leaf Search.anchorBelow
    cases hf : s.node.isFlag with
    | true =>
      rw [hf] at ht
      rw [lastPiece?_cons_of_not_isTarget ht] at hl
      simp only [↓reduceIte, show q.anchor = some last from hl, Option.getD_some]
    | false =>
      rw [hf] at ht
      rw [lastPiece?_cons_of_isTarget ht] at hl
      rw [← Option.some.inj (show some (tree.onward child) = some last from hl), honward]
      rfl
  | @nested q p child path m _ hp _ ih =>
    refine ih hm hp.readable_or ?_
    rw [hp.anchor_eq, ← hl]
    cases ht : tree.isTarget child with
    | true =>
      rw [lastPiece?_cons_of_isTarget ht]
      cases tree.lastPiece? path <;> rfl
    | false => rw [lastPiece?_cons_of_not_isTarget ht, if_neg (by simp)]

/-- The way from the root begins with a literal or an argument. -/
theorem FindsBy.exists_lastPiece {c : Cursor} (h : tree.FindsBy context (.start context c) path m)
    (hw : tree.WellFormed) (hroot : tree.PiecesBelowRoot) :
    ∃ last, tree.lastPiece? path = some last := by
  have hpiece : ∀ child, tree.Tries (.start context c) child → tree.isTarget child = true := by
    rintro child ⟨-, node, hn, hm⟩
    exact hroot child (hw.isChild_of_relevant hn hm)
  cases h with
  | here _ hn hc => exact absurd rfl (hw.ne_root_of_isChild hn hc)
  | leaf _ ht _ _ _ => exact ⟨_, lastPiece?_cons_of_isTarget (hpiece _ ht) _⟩
  | nested _ hp _ => exact ⟨_, lastPiece?_cons_of_isTarget (hpiece _ hp.exists_step.1) _⟩

end Tree

namespace Dispatcher

variable {d : Dispatcher κ} {context : Context} {c : Cursor} {m : Match}

/-- **A match that uses up the line is never at a flag.** It is at a literal or an argument: by
whatever way the search has found it, it is at the last literal or argument on that way, or at the
target of its redirect if it has one. The redirects must lead to literals or arguments. -/
theorem endsAtLastPiece_of_isComplete (h : d.Reachable) (hlead : d.tree.RedirectsLead)
    (hp : d.tree.matchAt context c = .ok (some m)) (hm : m.isComplete = true) :
    d.tree.isTarget m.node = true ∧
    (∃ path, d.tree.FindsBy context (.start context c) path m) ∧
    ∀ path, d.tree.FindsBy context (.start context c) path m →
      ∃ last, d.tree.lastPiece? path = some last ∧ m.node = d.tree.onward last := by
  have hw := h.tree.wellFormed
  have hends : ∀ path, d.tree.FindsBy context (.start context c) path m →
      ∃ last, d.tree.lastPiece? path = some last ∧ m.node = d.tree.onward last := by
    intro path hpath
    obtain ⟨last, hlast⟩ := hpath.exists_lastPiece hw h.piecesBelowRoot
    refine ⟨last, hlast, hpath.node_eq hm (.inl (Tree.readable_of_matchAt hw hp)) ?_⟩
    rw [hlast]
    rfl
  obtain ⟨path, hpath⟩ := Tree.exists_findsBy (q := .start context c) hp
  obtain ⟨last, hlast, hnode⟩ := hends path hpath
  refine ⟨?_, ⟨path, hpath⟩, hends⟩
  rw [hnode]
  exact hlead.isTarget_onward (Tree.isTarget_of_lastPiece? hlast)

/-- `list` with a flag and a flag below it, and `l`, which leads to it. -/
def listWithAlias : Except Violation (Dispatcher Unit) := do
  let list ← (literal "list").executes ()
  let list ← list.child ((flag 'v').child (flag 'w').toSpec).toSpec
  let (d, id) ← ({} : Dispatcher Unit).register list
  let l ← (literal "l").redirects id
  let (d, _) ← d.register l
  return d

theorem reachable_of_listWithAlias {d : Dispatcher Unit} (h : listWithAlias = .ok d) :
    d.Reachable := by
  obtain ⟨list₁, hcommand, h⟩ := exists_of_bind_eq_ok h
  obtain ⟨list, hlist, h⟩ := exists_of_bind_eq_ok h
  obtain ⟨⟨d₁, id⟩, h₁, h⟩ := exists_of_bind_eq_ok h
  obtain ⟨l, hl, h⟩ := exists_of_bind_eq_ok h
  obtain ⟨⟨d₂, _⟩, h₂, h⟩ := exists_of_bind_eq_ok h
  cases h
  have hflag := (FlagDraft.Drafted.flag 'v' (κ := Unit)).child (.flag (.flag 'w'))
  have hlist := ((CommandDraft.Drafted.literal "list").executes hcommand).child (.flag hflag) hlist
  have hl := (CommandDraft.Drafted.literal "l").redirects hl
  exact ((Reachable.start {}).register hlist h₁).register hl h₂

/-- Behind the alias and both flags, the line ends at what the alias leads to. -/
theorem endsAtLastPiece_of_isComplete_listWithAlias :
    ∃ (d : Dispatcher Unit) (m : Match) (path : List NodeId) (last : NodeId),
      listWithAlias = .ok d ∧ d.Reachable ∧ d.tree.RedirectsLead ∧
      d.parse .empty "l -v -w" = .ok (some m) ∧ m.isComplete = true ∧ m.node = 1 ∧
      m.trail.flags = [⟨⟨2, 4⟩, 'v'⟩, ⟨⟨5, 7⟩, 'w'⟩] ∧ d.tree.isTarget m.node = true ∧
      d.tree.FindsBy .empty (.start .empty (.atStart "l -v -w")) path m ∧
      d.tree.lastPiece? path = some last ∧ m.node = d.tree.onward last := by
  have hlead : listWithAlias.map (fun d => decide d.tree.RedirectsLead) = .ok true := by
    decide +kernel
  have hrun : listWithAlias.map (fun d => (d.parse .empty "l -v -w").map
      (Option.map fun m => (m.node, m.isComplete, m.trail.flags))) =
        .ok (.ok (some (1, true, [⟨⟨2, 4⟩, 'v'⟩, ⟨⟨5, 7⟩, 'w'⟩]))) := by
    cbv
  obtain ⟨d, h, hd⟩ := exists_of_map_eq_ok hlead
  have hlead := of_decide_eq_true hd
  have hreach := reachable_of_listWithAlias h
  rw [h] at hrun
  obtain ⟨found, hp, hfound⟩ := exists_of_map_eq_ok (Except.ok.inj hrun)
  obtain ⟨m, rfl, hmap⟩ := Option.map_eq_some_iff.1 hfound
  obtain ⟨hnode, hmap⟩ := Prod.mk.inj hmap
  obtain ⟨hm, hflags⟩ := Prod.mk.inj hmap
  obtain ⟨htarget, ⟨path, hpath⟩, hends⟩ := endsAtLastPiece_of_isComplete hreach hlead hp hm
  obtain ⟨last, hlast, honward⟩ := hends path hpath
  exact ⟨d, m, path, last, h, hreach, hlead, hp, hm, hnode, hflags, htarget, hpath, hlast, honward⟩

end Dispatcher

end CommandGrammar
