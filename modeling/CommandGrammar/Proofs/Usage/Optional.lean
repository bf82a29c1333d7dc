import CommandGrammar.Proofs.Usage.Form

/-!
# What usage lines show as optional

What follows a node is shown in two places, behind the node in the usage of its parent and in front
in its own usage, and in either place it is decided anew whether it may be left out. Behind the node
it may if the node is a flag or has a command, and in front if it has a command.

Main statement: where a node has one way to go on, the two places agree exactly if the node is no
flag (`Tree.lists_optional_iff_of_reachable`). What follows a flag is optional behind the flag and
required in the flag's own usage (`Tree.exists_flag_listed_unlike_described`).

Whether a line shows a fragment as optional is read off its front. This can be done, for a line is
the fragment of its node, bracketed or not, and then nothing or a separator
(`Tree.exists_describe_eq_append`), and a bracket is not a separator.
-/

namespace CommandGrammar

open Relation

variable {κ : Type}

/-! ### The front of a line -/

/-- What stands behind the first part of a line: nothing, or a separator and more. -/
def IsRest (rest : String) : Prop := ∀ c ∈ rest.toList.head?, c = separator

theorem isRest_empty : IsRest "" := by simp [IsRest]

theorem isRest_separator (text : String) : IsRest (String.singleton separator ++ text) := by
  simp [IsRest]

theorem exists_joinParts_eq_append (first second : String) :
    ∃ rest, joinParts first second = first ++ rest ∧ IsRest rest := by
  unfold joinParts
  split
  · exact ⟨"", String.append_empty.symm, isRest_empty⟩
  · exact ⟨String.singleton separator ++ second, String.append_assoc, isRest_separator second⟩

theorem exists_alternatives_eq_append (style : UsageStyle) (this : String) (optional : Bool)
    (nodes : List (Node κ)) :
    ∃ rest, Tree.alternatives style this optional nodes = this ++ rest ∧ IsRest rest := by
  simp only [Tree.alternatives]
  split
  · exact exists_joinParts_eq_append _ _
  · exact ⟨_, String.append_assoc, isRest_separator _⟩

/-- A text does not begin with itself behind something else. -/
theorem not_cons_append_prefix {first : Char} {rest : List Char} (hrest : rest.head? ≠ some first)
    (text more : List Char) : ¬ (first :: (text ++ more)) <+: (text ++ rest) := by
  induction text with
  | nil =>
    rintro ⟨others, rfl⟩
    exact hrest rfl
  | cons next text ih =>
    rw [List.cons_append, List.cons_append, List.cons_prefix_cons]
    rintro ⟨rfl, h⟩
    exact ih h

/-- Whether a fragment is bracketed is seen in front of the line. A fragment may begin with a bracket
itself, but then all of it would have to be brackets, and one more would follow. -/
theorem mark_prefix_iff {fragment rest : String} {optional : Bool} (hrest : IsRest rest) :
    (({} : UsageStyle).mark true fragment).toList <+:
      (({} : UsageStyle).mark optional fragment ++ rest).toList ↔ optional = true := by
  rw [String.toList_append]
  cases optional with
  | true => exact iff_of_true (List.prefix_append _ _) rfl
  | false =>
    refine iff_of_false ?_ (by decide)
    have hfirst : rest.toList.head? ≠ some '[' := fun h =>
      absurd (hrest '[' h) (by decide)
    have hmark : (({} : UsageStyle).mark true fragment).toList =
        '[' :: (fragment.toList ++ [']']) := by
      simp [UsageStyle.mark]
    rw [hmark]
    exact not_cons_append_prefix hfirst _ _

/-- A text is seen behind the first part of a line exactly if the second part begins with it. -/
theorem append_prefix_joinParts_iff {first second text : String} (htext : text ≠ "") :
    (first ++ String.singleton separator ++ text).toList <+: (joinParts first second).toList ↔
      text.toList <+: second.toList := by
  unfold joinParts
  split
  · rename_i hempty
    rw [String.isEmpty_iff] at hempty
    subst hempty
    refine iff_of_false (fun h => ?_) fun h => ?_
    · have hlength := h.length_le
      simp at hlength
    · exact htext (by simpa using h)
  · simp only [String.toList_append, List.append_assoc, List.prefix_append_right_inj]

namespace Tree

variable {tree : Tree κ} {style : UsageStyle} {context : Context} {id next parent : NodeId}
  {optional : Bool} {node nextNode owner : Node κ} {line : String}

/-- A line begins with the fragment of its node, and then the node's name is over. -/
theorem exists_describe_eq_append (hn : tree.node? id = some node)
    (h : tree.describe style context id optional = .ok line) :
    ∃ rest, line = style.mark optional (node.fragment style) ++ rest ∧ IsRest rest := by
  cases hr : node.redirect? with
  | some target =>
    rw [describe_of_redirect hn hr] at h
    obtain ⟨goal, -, rfl⟩ := exists_of_map_eq_ok h
    refine ⟨_, ?_, isRest_separator
      (style.redirect ++ String.singleton separator ++ goal.fragment style)⟩
    simp only [String.append_assoc]
  | none =>
    rw [describe, node_eq_ok.2 hn] at h
    simp only [bind, Except.bind, hr] at h
    obtain ⟨nodes, -, h⟩ := exists_of_bind_eq_ok h
    rcases nodes with _ | ⟨⟨only, onlyNode⟩, _ | ⟨second, others⟩⟩
    · obtain rfl := Except.ok.inj h
      exact ⟨"", String.append_empty.symm, isRest_empty⟩
    · simp only at h
      split at h
      · obtain rfl := Except.ok.inj h
        exact exists_joinParts_eq_append _ _
      · split at h
        · obtain ⟨below, -, h⟩ := exists_of_bind_eq_ok h
          obtain rfl := Except.ok.inj h
          exact exists_joinParts_eq_append _ _
        · obtain rfl := Except.ok.inj h
          exact ⟨"", String.append_empty.symm, isRest_empty⟩
    · obtain rfl := Except.ok.inj h
      exact exists_alternatives_eq_append _ _ _ _

/-- Where there is one way to go on, its fragment stands directly behind the node. It is bracketed if
the node is a flag or has a command. -/
theorem exists_describe_eq_joinParts (hw : tree.WellFormed) (hn : tree.node? id = some node)
    (hchild : node.isChild = true) (hr : node.redirect? = none)
    (honly : tree.usableChildren context node = [(next, nextNode)])
    (h : tree.describe style context id optional = .ok line) :
    ∃ rest, IsRest rest ∧ line = joinParts (style.mark optional (node.fragment style))
      (style.mark node.optionalBehind (nextNode.fragment style) ++ rest) := by
  cases hoptional : node.optionalBehind with
  | true =>
    rw [describe, node_eq_ok.2 hn] at h
    simp only [bind, Except.bind, hr, usable_eq_ok hw hn, honly,
      Node.restOptional_eq_optionalBehind hchild, hoptional, if_pos] at h
    obtain rfl := Except.ok.inj h
    exact ⟨"", isRest_empty, by rw [String.append_empty]⟩
  | false =>
    have hcontinues : tree.Continues context node next nextNode := by
      by_contra hends
      rw [optionalBehind_of_not_continues hr honly hends] at hoptional
      cases hoptional
    rw [describe_of_goesOn hw hn (hcontinues.goesOn hn hchild)] at h
    obtain ⟨below, hbelow, rfl⟩ := exists_of_map_eq_ok h
    obtain ⟨rest, rfl, hrest⟩ := exists_describe_eq_append hcontinues.node? hbelow
    exact ⟨rest, hrest, rfl⟩

/-! ### The two places -/

/-- The usage of a node has a line for another one. -/
def Lists (tree : Tree κ) (style : UsageStyle) (context : Context) (parent child : NodeId)
    (line : String) : Prop :=
  ∃ lines, tree.usage style context parent = .ok lines ∧ (child, line) ∈ lines

/-- Where there is a usage, every child that may be used has one line in it. -/
theorem exists_lists_iff (hw : tree.WellFormed) (hp : tree.node? parent = some owner)
    (hlines : ∃ lines, tree.usage style context parent = .ok lines)
    (hu : tree.HasUsable context parent id) :
    ∃ line, tree.describe style context id owner.command?.isSome = .ok line ∧
      ∀ other, tree.Lists style context parent id other ↔ other = line := by
  have hstays := (exists_usage_iff style hw (lt_size_of_node? hp)).1 hlines id hu
  obtain ⟨line, hline⟩ :=
    (exists_describe_iff style owner.command?.isSome hw (hw.bounds_of_isChild hu.1).2).2 hstays
  obtain ⟨lines, hlines⟩ := hlines
  refine ⟨line, hline, fun other => ⟨?_, ?_⟩⟩
  · rintro ⟨lines', hlines', hm⟩
    have hother := ((mem_usage_iff hlines' hp id other).1 hm).2
    exact Except.ok.inj (hother.symm.trans hline)
  · rintro rfl
    exact ⟨lines, hlines, (mem_usage_iff hlines hp id other).2 ⟨hu, hline⟩⟩

/-- In front of a line, a fragment is shown as optional. -/
def ShowsOptional (line fragment : String) : Prop :=
  (({} : UsageStyle).mark true fragment).toList <+: line.toList

/-- Directly behind the first part of a line, a fragment is shown as optional. -/
def ShowsOptionalBehind (line first fragment : String) : Prop :=
  (first ++ String.singleton separator ++ ({} : UsageStyle).mark true fragment).toList <+:
    line.toList

/-- **What the two places agree on.** Let a node have no redirect and one child that may be used. In
the usage of its parent the child is shown as optional behind the node exactly if the node is a flag
or has a command; in its own usage the child is shown as optional exactly if the node has a command.
So the two agree exactly if the node is no flag. -/
theorem lists_optional_iff_of_reachable (context : Context) (h : tree.Reachable)
    (hp : tree.node? parent = some owner) (hn : tree.node? id = some node)
    (hu : tree.HasUsable context parent id) (hr : node.redirect? = none)
    (honly : tree.usableChildren context node = [(next, nextNode)])
    (hlines : ∃ lines, tree.usage {} context parent = .ok lines)
    (hbelow : ∃ lines, tree.usage {} context id = .ok lines) :
    ∃ line lineBelow,
      (∀ other, tree.Lists {} context parent id other ↔ other = line) ∧
      (∀ other, tree.Lists {} context id next other ↔ other = lineBelow) ∧
      (ShowsOptionalBehind line (({} : UsageStyle).mark owner.command?.isSome (node.fragment {}))
        (nextNode.fragment {}) ↔ node.isFlag = true ∨ node.command?.isSome = true) ∧
      (ShowsOptional lineBelow (nextNode.fragment {}) ↔ node.command?.isSome = true) ∧
      ((ShowsOptionalBehind line (({} : UsageStyle).mark owner.command?.isSome (node.fragment {}))
          (nextNode.fragment {}) ↔ ShowsOptional lineBelow (nextNode.fragment {})) ↔
        node.isFlag = false) := by
  have hw := h.wellFormed
  have hnext : tree.HasUsable context id next :=
    (hasUsable_iff_mem_usableChildren hn).2 (by simp [honly])
  have hchild := hw.isChild_of_ne_root hn (hw.child_ne_root hu.1)
  have hnextNode := (mem_usableChildren_iff.1 (honly ▸ List.mem_singleton_self _)).2.1
  obtain ⟨line, hline, hlists⟩ := exists_lists_iff hw hp hlines hu
  obtain ⟨lineBelow, hlineBelow, hlistsBelow⟩ := exists_lists_iff hw hn hbelow hnext
  refine ⟨line, lineBelow, hlists, hlistsBelow, ?_⟩
  have hbehind : ShowsOptionalBehind line
      (({} : UsageStyle).mark owner.command?.isSome (node.fragment {})) (nextNode.fragment {}) ↔
        node.isFlag = true ∨ node.command?.isSome = true := by
    obtain ⟨rest, hrest, rfl⟩ := exists_describe_eq_joinParts hw hn hchild hr honly hline
    rw [ShowsOptionalBehind, append_prefix_joinParts_iff (by simp [UsageStyle.mark]),
      mark_prefix_iff hrest, Node.optionalBehind, Bool.or_eq_true]
  have hfront : ShowsOptional lineBelow (nextNode.fragment {}) ↔
      node.command?.isSome = true := by
    obtain ⟨rest, rfl, hrest⟩ := exists_describe_eq_append hnextNode hlineBelow
    rw [ShowsOptional, mark_prefix_iff hrest]
  refine ⟨hbehind, hfront, ?_⟩
  rw [hbehind, hfront]
  cases hcommand : node.command? with
  | none => simp
  | some command => simp [Node.isFlag_of_command? hcommand]

/-- `foo` with a command, a flag below it, and a literal below the flag. -/
def literalBelowFlag : Except Violation (Tree Unit) := do
  let (tree, _) ← Tree.empty.add root ⟨.piece (.literal "foo") { command := some () }, none,
    [⟨.flag 'x', none, [⟨.piece (.literal "bar") {}, none, []⟩]⟩]⟩
  return tree

theorem reachable_of_literalBelowFlag {tree : Tree Unit} (h : literalBelowFlag = .ok tree) :
    tree.Reachable := by
  obtain ⟨⟨t₁, _⟩, h₁, h⟩ := exists_of_bind_eq_ok h
  cases h
  have leaf := fun symbol : Symbol Unit => Spec.drafted_of_no_children symbol none
  have hflag := (FlagDraft.Drafted.flag 'x').child (leaf (.piece (.literal "bar") {}))
  have hcommand : (literal "foo").executes () = .ok _ := rfl
  have hfoo := ((CommandDraft.Drafted.literal "foo").executes hcommand).child (.flag hflag) rfl
  exact ReflTransGen.refl.tail (.add (.command hfoo) h₁)

/-- What usage lines take from a node: its fragment, its command, its redirect, and the children that
may be used with their fragments. -/
structure Outline where
  /-- The fragment of the node. -/
  fragment : String
  /-- The command of the node. -/
  command : Option Unit
  /-- The redirect of the node. -/
  redirect : Option NodeId
  /-- The children that may be used, with their fragments. -/
  children : List (NodeId × String)
  deriving DecidableEq

/-- The outline of the node at a place, if there is one. -/
def outline? (tree : Tree Unit) (context : Context) (id : NodeId) : Option Outline :=
  (tree.node? id).map fun node => ⟨node.fragment {}, node.command?, node.redirect?,
    (tree.usableChildren context node).map fun (child, childNode) => (child, childNode.fragment {})⟩

theorem exists_of_outline {tree : Tree Unit} {context : Context} {fragment nextFragment : String}
    {command : Option Unit}
    (h : tree.outline? context id = some ⟨fragment, command, none, [(next, nextFragment)]⟩) :
    ∃ node nextNode, tree.node? id = some node ∧ node.fragment {} = fragment ∧
      node.command? = command ∧ node.redirect? = none ∧
      tree.usableChildren context node = [(next, nextNode)] ∧
      nextNode.fragment {} = nextFragment := by
  obtain ⟨node, hn, houtline⟩ := Option.map_eq_some_iff.1 h
  obtain ⟨hfragment, hcommand, hr, hchildren⟩ := Outline.mk.inj houtline
  obtain ⟨⟨_, nextNode⟩, honly, hnext⟩ := List.map_eq_singleton_iff.1 hchildren
  obtain ⟨rfl, hnextFragment⟩ := Prod.mk.inj hnext
  exact ⟨node, nextNode, hn, hfragment, hcommand, hr, honly, hnextFragment⟩

/-- The flag behind `foo` is optional in both places. -/
theorem lists_optional_iff_of_reachable_literalBelowFlag :
    ∃ (tree : Tree Unit) (node nextNode : Node Unit) (line lineBelow : String),
      literalBelowFlag = .ok tree ∧ tree.Reachable ∧ tree.node? 1 = some node ∧
      tree.HasUsable .empty root 1 ∧ node.redirect? = none ∧
      tree.usableChildren .empty node = [(2, nextNode)] ∧ tree.Lists {} .empty root 1 line ∧
      tree.Lists {} .empty 1 2 lineBelow ∧ ShowsOptionalBehind line "foo" "-x" ∧
      ShowsOptional lineBelow "-x" := by
  have hrun : literalBelowFlag.map (fun tree => decide (
      tree.outline? .empty 0 = some ⟨"", none, none, [(1, "foo")]⟩ ∧
      tree.outline? .empty 1 = some ⟨"foo", some (), none, [(2, "-x")]⟩ ∧
      tree.usage {} .empty 0 = .ok [(1, "foo [-x]")] ∧
      tree.usage {} .empty 1 = .ok [(2, "[-x] [bar]")])) = .ok true := by
    decide +kernel
  obtain ⟨tree, h, hd⟩ := exists_of_map_eq_ok hrun
  obtain ⟨htop, hfoo, hlines, hbelow⟩ := of_decide_eq_true hd
  obtain ⟨owner, _, ho, -, hcommand, -, hchildren, -⟩ := exists_of_outline htop
  obtain ⟨node, nextNode, hn, hfragment, hcommand', hr, honly, hnextFragment⟩ :=
    exists_of_outline hfoo
  have hreach := reachable_of_literalBelowFlag h
  have hu : tree.HasUsable .empty root 1 :=
    (hasUsable_iff_mem_usableChildren ho).2 (by simp [hchildren])
  obtain ⟨line, lineBelow, hlists, hlistsBelow, hbehind, hfront, -⟩ :=
    lists_optional_iff_of_reachable .empty hreach ho hn hu hr honly ⟨_, hlines⟩ ⟨_, hbelow⟩
  rw [hcommand, hfragment, hnextFragment, hcommand'] at hbehind
  rw [hnextFragment, hcommand'] at hfront
  exact ⟨tree, node, nextNode, line, lineBelow, h, hreach, hn, hu, hr, honly,
    (hlists line).2 rfl, (hlistsBelow lineBelow).2 rfl, hbehind.2 (.inr rfl), hfront.2 rfl⟩

/-- **A flag is not described as it is listed.** What follows it is optional in its parent's usage and
required in its own. -/
theorem exists_flag_listed_unlike_described :
    ∃ (tree : Tree Unit) (owner node nextNode : Node Unit),
      literalBelowFlag = .ok tree ∧ tree.Reachable ∧ tree.node? 1 = some owner ∧
      tree.node? 2 = some node ∧ tree.HasUsable .empty 1 2 ∧ node.redirect? = none ∧
      tree.usableChildren .empty node = [(3, nextNode)] ∧
      tree.usage {} .empty 1 = .ok [(2, "[-x] [bar]")] ∧
      tree.usage {} .empty 2 = .ok [(3, "bar")] ∧
      ¬ (ShowsOptionalBehind "[-x] [bar]"
            (({} : UsageStyle).mark owner.command?.isSome (node.fragment {}))
            (nextNode.fragment {}) ↔
          ShowsOptional "bar" (nextNode.fragment {})) := by
  have hrun : literalBelowFlag.map (fun tree => decide (
      tree.outline? .empty 1 = some ⟨"foo", some (), none, [(2, "-x")]⟩ ∧
      tree.outline? .empty 2 = some ⟨"-x", none, none, [(3, "bar")]⟩ ∧
      tree.usage {} .empty 1 = .ok [(2, "[-x] [bar]")] ∧
      tree.usage {} .empty 2 = .ok [(3, "bar")])) = .ok true := by
    decide +kernel
  obtain ⟨tree, h, hd⟩ := exists_of_map_eq_ok hrun
  obtain ⟨hfoo, hflag, hlines, hbelow⟩ := of_decide_eq_true hd
  obtain ⟨owner, _, ho, -, hcommand, -, hchildren, -⟩ := exists_of_outline hfoo
  obtain ⟨node, nextNode, hn, hfragment, -, hr, honly, hnextFragment⟩ := exists_of_outline hflag
  have hreach := reachable_of_literalBelowFlag h
  have hu : tree.HasUsable .empty 1 2 :=
    (hasUsable_iff_mem_usableChildren ho).2 (by simp [hchildren])
  refine ⟨tree, owner, node, nextNode, h, hreach, ho, hn, hu, hr, honly, hlines, hbelow, ?_⟩
  rw [hcommand, hfragment, hnextFragment]
  unfold ShowsOptionalBehind ShowsOptional
  decide

end Tree

end CommandGrammar
