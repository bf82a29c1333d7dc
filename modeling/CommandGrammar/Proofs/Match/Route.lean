import CommandGrammar.Match

/-!
# Where the search can end

A search tries many ways and forgets most of them. This module says which ways there are
(`Tree.Route`): a match is a node itself, or lies at a child that uses up the line, below a child, or
below the target of a child's redirect.

Main statement: a search returns nothing but what a route leads to (`Tree.route_of_matchFrom`), by
induction on the text left to read. So a property of matches is proved by induction on a route, with
one case for each of the four ways, and without the matches that were given up.
-/

namespace CommandGrammar

variable {κ : Type}

theorem Match.eq_of_better_eq_some {first second : Option Match} {m : Match}
    (h : better first second = some m) : first = some m ∨ second = some m := by
  unfold better at h
  split at h
  · exact .inr h
  · exact .inl h
  · split at h
    · exact .inr h
    · exact .inl h

namespace Tree

variable {tree : Tree κ} {context : Context} {id : NodeId} {anchor : Option NodeId} {c : Cursor}
  {t : Trail} {m : Match}

/-- The search below a node can end in a match. -/
inductive Route (tree : Tree κ) (context : Context) :
    NodeId → Option NodeId → Cursor → Trail → Match → Prop where
  /-- The match is the node itself. -/
  | here {id : NodeId} {anchor : Option NodeId} {c : Cursor} {t : Trail} {node : Node κ} :
      tree.node? id = some node → node.isChild = true → Route tree context id anchor c t ⟨id, c, t⟩
  /-- A child matches and uses up the line. -/
  | leaf {id child : NodeId} {anchor : Option NodeId} {c : Cursor} {t : Trail} {node : Node κ}
      {s : Step κ} : tree.node? id = some node → child ∈ node.relevantChildren c →
      tree.step context child c t = .ok (some s) → s.node.redirect? = none →
      s.cursor.readable = false → Route tree context id anchor c t
        ⟨(if s.node.isFlag then anchor else some child).getD child, s.cursor, s.trail⟩
  /-- A child matches, and the search goes on below it. -/
  | descend {id child : NodeId} {anchor : Option NodeId} {c : Cursor} {t : Trail} {node : Node κ}
      {s : Step κ} {m : Match} : tree.node? id = some node → child ∈ node.relevantChildren c →
      tree.step context child c t = .ok (some s) → s.node.redirect? = none →
      s.cursor.readable = true →
      Route tree context child (if s.node.isFlag then anchor else some child) s.cursor s.trail m →
      Route tree context id anchor c t m
  /-- A child matches, and the search goes on below the target of its redirect. -/
  | redirect {id child target : NodeId} {anchor : Option NodeId} {c : Cursor} {t : Trail}
      {node : Node κ} {s : Step κ} {m : Match} : tree.node? id = some node →
      child ∈ node.relevantChildren c → tree.step context child c t = .ok (some s) →
      s.node.redirect? = some target →
      Route tree context target (some target) s.cursor s.trail m →
      Route tree context id anchor c t m

/-- Trying children finds nothing but what was found before and what a route leads to. -/
theorem route_of_matchAny {node : Node κ} {readable : c.rest ≠ []} {here best : Option Match}
    {children : List NodeId}
    (ih : ∀ id anchor (d : Cursor) t m, d.rest.length < c.rest.length →
      tree.matchFrom context id anchor d t = .ok (some m) → tree.Route context id anchor d t m)
    (hn : tree.node? id = some node) (hc : children ⊆ node.relevantChildren c)
    (hbest : ∀ m, best = some m → tree.Route context id anchor c t m)
    (hhere : ∀ m, here = some m → tree.Route context id anchor c t m)
    (h : tree.matchAny context anchor c readable t here best children = .ok (some m)) :
    tree.Route context id anchor c t m := by
  induction children generalizing best with
  | nil =>
    rw [matchAny_nil] at h
    rcases Option.or_eq_some_iff.1 (Except.ok.inj h) with h | ⟨-, h⟩
    · exact hbest m h
    · exact hhere m h
  | cons child children ihc =>
    obtain ⟨hchild, hrest⟩ := List.cons_subset.1 hc
    cases hs : tree.step context child c t with
    | error failure =>
      rw [matchAny_cons_of_error hs] at h
      cases h
    | ok result =>
      cases result with
      | none =>
        rw [matchAny_cons_of_none hs] at h
        exact ihc hrest hbest h
      | some s =>
        have hlt := length_rest_lt_of_step hs readable
        cases hr : s.node.redirect? with
        | some target =>
          rw [matchAny_cons_of_redirect hs hr] at h
          exact .redirect hn hchild hs hr (ih _ _ _ _ _ hlt h)
        | none =>
          rw [matchAny_cons_of_resume hs hr] at h
          cases hf : tree.resume context anchor child s with
          | error failure =>
            rw [hf] at h
            cases h
          | ok found =>
            rw [hf] at h
            refine ihc hrest (fun m hm => ?_) h
            rcases Match.eq_of_better_eq_some hm with hm | rfl
            · exact hbest m hm
            · unfold resume at hf
              simp only at hf
              split at hf
              · rename_i he
                exact .descend hn hchild hs hr he (ih _ _ _ _ _ hlt hf)
              · rename_i he
                obtain rfl := Option.some.inj (Except.ok.inj hf)
                exact .leaf hn hchild hs hr (Bool.eq_false_iff.2 he)

/-- **Every match is at the end of a route.** -/
theorem route_of_matchFrom (h : tree.matchFrom context id anchor c t = .ok (some m)) :
    tree.Route context id anchor c t m := by
  induction hlen : c.rest.length using Nat.strongRecOn generalizing id anchor c t m with
  | ind n ih =>
    rw [matchFrom] at h
    split at h
    · cases h
    · rename_i node hn
      have hn := node_eq_ok.1 hn
      have hhere : ∀ m, (if node.isChild then some (⟨id, c, t⟩ : Match) else none) = some m →
          tree.Route context id anchor c t m := by
        intro m hm
        split at hm
        · rename_i hc
          obtain rfl := Option.some.inj hm
          exact .here hn hc
        · cases hm
      simp only at h
      split at h
      · refine route_of_matchAny ?_ hn (List.Subset.refl _) ?_ hhere h
        · intro id anchor d t m hd h
          exact ih d.rest.length (hlen ▸ hd) h rfl
        · intro m hm
          cases hm
      · exact hhere m (Except.ok.inj h)

end Tree

end CommandGrammar
