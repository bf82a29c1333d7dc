import CommandGrammar.Proofs.Usage.Chain

/-!
# The form of a usage line

A usage line says which nodes follow each other without a choice and then, at the last of them, what
there is to choose or to leave out. This module says both without the recursion by which lines are
made: the nodes that a line follows (`Tree.Walk`), and what stands behind the last one
(`Tree.lineEnd`). The signs of the style are spelled out in both.

Main statement: there is exactly one walk from every node, whatever redirects there are, and the
line of the node is written along it (`Tree.usage_eq_lineAlong_of_reachable`).

The walk from a node is found by induction on the place of the node in the grammar, and the line is
written by induction along the walk.
-/

namespace CommandGrammar

open Relation

variable {κ : Type}

namespace Node

/-- What follows a node may be left out: the node is a flag, or it has a command. -/
def optionalBehind (node : Node κ) : Bool := node.isFlag || node.command?.isSome

/-- How a node is shown in a line: a literal by its text, an argument by its name in the signs for
arguments, and a flag by a hyphen and its letter. The root is not shown. -/
def label (style : UsageStyle) (node : Node κ) : String :=
  match node.symbol? with
  | none => ""
  | some (.piece (.literal text) _) => text
  | some (.piece (.argument a) _) => style.argumentOpen ++ a.name ++ style.argumentClose
  | some (.flag c) => String.ofList ['-', c]

theorem fragment_eq_label (style : UsageStyle) (node : Node κ) :
    node.fragment style = node.label style := by
  obtain ⟨symbol?, requirement, children⟩ := node
  rcases symbol? with _ | ⟨_ | _, ending⟩ | flag <;> rfl

theorem restOptional_eq_optionalBehind {node : Node κ} (h : node.isChild = true) :
    node.restOptional = node.optionalBehind := by
  obtain ⟨symbol?, requirement, children⟩ := node
  rcases symbol? with _ | ⟨piece, ending⟩ | flag
  · cases h
  · rfl
  · rfl

end Node

/-! ### Texts -/

theorem UsageStyle.mark_inj {style : UsageStyle} {optional : Bool} {a b : String} :
    style.mark optional a = style.mark optional b ↔ a = b := by
  cases optional with
  | false => rfl
  | true => simp [UsageStyle.mark, ← String.toList_inj]

theorem UsageStyle.mark_ne_empty {style : UsageStyle} {text : String} (h : text ≠ "")
    (optional : Bool) : style.mark optional text ≠ "" := by
  cases optional with
  | false => exact h
  | true => simp [UsageStyle.mark, h]

theorem joinParts_eq_lineOf {second : String} (first : String) (h : second ≠ "") :
    joinParts first second = lineOf [first, second] := by
  rw [← joinParts_lineOf (List.cons_ne_nil second []) fun hempty => h (List.cons.inj hempty).1,
    lineOf_singleton]

/-- What has been seen stays in front. -/
theorem prefix_foldl_distinct (seen texts : List String) :
    seen <+: texts.foldl (fun seen text => if text ∈ seen then seen else seen ++ [text]) seen := by
  induction texts generalizing seen with
  | nil => exact List.prefix_rfl
  | cons text texts ih =>
    rw [List.foldl_cons]
    split
    · exact ih seen
    · exact (List.prefix_append seen [text]).trans (ih _)

/-- Only one text is left exactly if all are the same. -/
theorem distinct_eq_singleton_iff {first text : String} {others : List String} :
    distinct (first :: others) = [text] ↔ text = first ∧ ∀ other ∈ others, other = first := by
  rw [distinct, List.foldl_cons, if_neg List.not_mem_nil, List.nil_append]
  induction others with
  | nil => simp [eq_comm]
  | cons other others ih =>
    rw [List.foldl_cons, List.forall_mem_cons]
    by_cases hother : other = first
    · rw [if_pos (List.mem_singleton.2 hother), ih]
      simp [hother]
    · rw [if_neg fun hm => hother (List.mem_singleton.1 hm)]
      refine iff_of_false (fun h => ?_) fun h => hother h.2.1
      have hlength := (prefix_foldl_distinct ([first] ++ [other]) others).length_le
      rw [h] at hlength
      simp at hlength

/-- The alternatives behind a node are one word of the line. -/
theorem alternatives_eq_lineOf {style : UsageStyle} {first : Node κ} (this : String)
    (optional : Bool) (others : List (Node κ)) (hfirst : first.label style ≠ "") :
    Tree.alternatives style this optional (first :: others) =
      lineOf [this, if ∀ other ∈ others.map (Node.label style), other = first.label style then
          style.mark optional (first.label style)
        else style.group optional ((first :: others).map (Node.label style))] := by
  have hlabel : Node.fragment style = Node.label (κ := κ) style :=
    funext (Node.fragment_eq_label style)
  have hdistinct (one : String) :
      distinct (((first :: others).map (Node.label style)).map (style.mark optional)) = [one] ↔
        one = style.mark optional (first.label style) ∧
          ∀ other ∈ others.map (Node.label style), other = first.label style := by
    rw [List.map_cons, List.map_cons, distinct_eq_singleton_iff, List.forall_mem_map]
    simp only [UsageStyle.mark_inj]
  simp only [Tree.alternatives, hlabel]
  split
  · rename_i one hone
    obtain ⟨rfl, hsame⟩ := (hdistinct one).1 hone
    rw [if_pos hsame, joinParts_eq_lineOf this (UsageStyle.mark_ne_empty hfirst optional)]
  · rename_i hmany
    rw [if_neg fun hsame => hmany _ ((hdistinct _).2 ⟨rfl, hsame⟩),
      lineOf_cons _ (List.cons_ne_nil _ _), lineOf_singleton]

namespace Tree

variable {tree : Tree κ} {style : UsageStyle} {context : Context} {id next : NodeId}
  {optional : Bool} {node nextNode last : Node κ} {nodes : List (Node κ)}

/-! ### What is shown of the children -/

/-- How the children that may be used are shown. -/
def labelsBelow (tree : Tree κ) (style : UsageStyle) (context : Context) (node : Node κ) :
    List String :=
  (tree.usableChildren context node).map fun (_, child) => child.label style

/-- Every node but the root is shown by some text. -/
def Labelled (tree : Tree κ) (style : UsageStyle) : Prop :=
  ∀ node ∈ tree.nodes, node.isChild = true → node.label style ≠ ""

instance (tree : Tree κ) (style : UsageStyle) : Decidable (tree.Labelled style) :=
  inferInstanceAs (Decidable (∀ node ∈ tree.nodes, _))

theorem WellFormed.isChild_of_mem_usableChildren (hw : tree.WellFormed)
    (hn : tree.node? id = some node) (hm : (next, nextNode) ∈ tree.usableChildren context node) :
    nextNode.isChild = true := by
  obtain ⟨hchild, hnext, -⟩ := mem_usableChildren_iff.1 hm
  exact hw.isChild_of_ne_root hnext (hw.child_ne_root ⟨node, hn, hchild⟩)

theorem Labelled.label_ne_empty (h : tree.Labelled style) (hw : tree.WellFormed)
    (hn : tree.node? id = some node) (hm : (next, nextNode) ∈ tree.usableChildren context node) :
    nextNode.label style ≠ "" :=
  h nextNode (Array.mem_of_getElem? (mem_usableChildren_iff.1 hm).2.1)
    (hw.isChild_of_mem_usableChildren hn hm)

/-! ### Walks -/

/-- A line goes on behind a node: this is a literal or an argument without a redirect and without a
command, and exactly one of its children may be used. -/
structure Continues (tree : Tree κ) (context : Context) (node : Node κ) (next : NodeId)
    (nextNode : Node κ) : Prop where
  /-- The node is no flag. -/
  isFlag : node.isFlag = false
  /-- There is no command. -/
  command : node.command? = none
  /-- There is no redirect. -/
  redirect : node.redirect? = none
  /-- There is one child to go on with. -/
  only : tree.usableChildren context node = [(next, nextNode)]

theorem Continues.mem (h : tree.Continues context node next nextNode) :
    (next, nextNode) ∈ tree.usableChildren context node :=
  h.only ▸ List.mem_singleton_self _

theorem Continues.node? (h : tree.Continues context node next nextNode) :
    tree.node? next = some nextNode :=
  (mem_usableChildren_iff.1 h.mem).2.1

theorem Continues.isChild (h : tree.Continues context node next nextNode)
    (hn : tree.node? id = some node) : tree.IsChild id next :=
  ⟨node, hn, (mem_usableChildren_iff.1 h.mem).1⟩

theorem Continues.goesOn (h : tree.Continues context node next nextNode)
    (hn : tree.node? id = some node) (hchild : node.isChild = true) :
    tree.GoesOn context id next where
  redirect := (redirect?_of_node? hn).trans h.redirect
  required := ⟨node, hn, by
    rw [Node.restOptional_eq_optionalBehind hchild, Node.optionalBehind, h.isFlag, h.command]
    rfl⟩
  only child := by
    rw [hasUsable_iff_mem_usableChildren hn, h.only, List.map_cons, List.map_nil,
      List.mem_singleton]

/-- The nodes that a line follows behind its first one, as long as it goes on, and the last one. -/
inductive Walk (tree : Tree κ) (context : Context) : Node κ → List (Node κ) → Node κ → Prop where
  /-- The line does not go on. -/
  | stop {node : Node κ} : (∀ next nextNode, ¬ tree.Continues context node next nextNode) →
      Walk tree context node [] node
  /-- The line goes on. -/
  | step {node nextNode last : Node κ} {next : NodeId} {nodes : List (Node κ)} :
      tree.Continues context node next nextNode → Walk tree context nextNode nodes last →
      Walk tree context node (nextNode :: nodes) last

/-- There is a walk from every node, for children come later in the grammar than their parents. -/
theorem exists_walk (context : Context) (hw : tree.WellFormed) (hn : tree.node? id = some node) :
    ∃ nodes last, tree.Walk context node nodes last := by
  induction hm : tree.size - id using Nat.strongRecOn generalizing id node with
  | ind n ih =>
    by_cases hgoes : ∃ next nextNode, tree.Continues context node next nextNode
    · obtain ⟨next, nextNode, hnext⟩ := hgoes
      obtain ⟨hlt, hsize⟩ := hw.bounds_of_isChild (hnext.isChild hn)
      have hless := Nat.sub_lt_sub_left (Nat.lt_trans hlt hsize) hlt
      obtain ⟨nodes, last, hwalk⟩ := ih _ (hm ▸ hless) hnext.node? rfl
      exact ⟨_, _, .step hnext hwalk⟩
    · exact ⟨_, _, .stop fun next nextNode hnext => hgoes ⟨next, nextNode, hnext⟩⟩

theorem Walk.unique {nodes' : List (Node κ)} {last' : Node κ}
    (h : tree.Walk context node nodes last) (h' : tree.Walk context node nodes' last') :
    nodes' = nodes ∧ last' = last := by
  induction h generalizing nodes' with
  | stop hends =>
    cases h' with
    | stop => exact ⟨rfl, rfl⟩
    | step hnext _ => exact absurd hnext (hends _ _)
  | step hnext _ ih =>
    cases h' with
    | stop hends => exact absurd hnext (hends _ _)
    | step hnext' hwalk' =>
      obtain ⟨rfl, rfl⟩ := Prod.mk.inj (List.cons.inj (hnext'.only.symm.trans hnext.only)).1
      obtain ⟨rfl, rfl⟩ := ih hwalk'
      exact ⟨rfl, rfl⟩

/-- A walk does not go on behind its last node. -/
theorem Walk.not_continues (h : tree.Walk context node nodes last) (next : NodeId)
    (nextNode : Node κ) : ¬ tree.Continues context last next nextNode := by
  induction h with
  | stop hends => exact hends next nextNode
  | step _ _ ih => exact ih

/-! ### Lines along walks -/

/-- What stands behind the last node that a line follows: the target of a redirect, or what there is
to choose or to leave out among the children that may be used. Alternatives that look the same are
shown once. -/
def lineEnd (tree : Tree κ) (style : UsageStyle) (context : Context) (last : Node κ) :
    List String :=
  match last.redirect? with
  | some target => style.redirect :: (tree.node? target).toList.map (Node.label style)
  | none =>
    match tree.labelsBelow style context last with
    | [] => []
    | [only] => [style.optionalOpen ++ only ++ style.optionalClose]
    | first :: others =>
      if ∀ other ∈ others, other = first then
        if last.optionalBehind then [style.optionalOpen ++ first ++ style.optionalClose] else [first]
      else
        let choice := style.alternative.intercalate (first :: others)
        if last.optionalBehind then [style.optionalOpen ++ choice ++ style.optionalClose]
        else [style.requiredOpen ++ choice ++ style.requiredClose]

/-- The line along a walk. Only its first node may be left out. -/
def lineAlong (tree : Tree κ) (style : UsageStyle) (context : Context) (optional : Bool)
    (node : Node κ) (nodes : List (Node κ)) (last : Node κ) : String :=
  let first :=
    if optional then style.optionalOpen ++ node.label style ++ style.optionalClose
    else node.label style
  " ".intercalate (first :: (nodes.map (Node.label style) ++ tree.lineEnd style context last))

/-- What stands behind the last node of a line, in the words by which lines are made. -/
theorem lineEnd_eq (tree : Tree κ) (style : UsageStyle) (context : Context) (last : Node κ) :
    tree.lineEnd style context last =
      match last.redirect? with
      | some target => style.redirect :: (tree.node? target).toList.map (Node.label style)
      | none =>
        match tree.labelsBelow style context last with
        | [] => []
        | [only] => [style.mark true only]
        | first :: others =>
          [if ∀ other ∈ others, other = first then style.mark last.optionalBehind first
            else style.group last.optionalBehind (first :: others)] := by
  unfold lineEnd
  cases last.redirect? with
  | some target => rfl
  | none =>
    rcases tree.labelsBelow style context last with _ | ⟨first, _ | ⟨second, others⟩⟩
    · rfl
    · rfl
    · simp only
      split <;> cases last.optionalBehind <;> rfl

theorem lineAlong_eq (tree : Tree κ) (style : UsageStyle) (context : Context) (optional : Bool)
    (node : Node κ) (nodes : List (Node κ)) (last : Node κ) :
    tree.lineAlong style context optional node nodes last =
      lineOf (style.mark optional (node.label style) ::
        (nodes.map (Node.label style) ++ tree.lineEnd style context last)) :=
  rfl

/-- Where exactly one child may be used and the line does not go on with it, it may be left out. -/
theorem optionalBehind_of_not_continues (hr : node.redirect? = none)
    (honly : tree.usableChildren context node = [(next, nextNode)])
    (hends : ¬ tree.Continues context node next nextNode) : node.optionalBehind = true := by
  by_contra hrequired
  obtain ⟨hflag, hcommand⟩ := Bool.or_eq_false_iff.1 (Bool.eq_false_iff.2 hrequired)
  have hnone := Option.isNone_iff_eq_none.1 (Option.isSome_eq_false_iff.1 hcommand)
  exact hends ⟨hflag, hnone, hr, honly⟩

/-- A line that does not go on ends with what there is to choose or to leave out, unless there is a
redirect. -/
theorem describe_of_no_redirect (optional : Bool) (hw : tree.WellFormed)
    (hlabels : tree.Labelled style) (hn : tree.node? id = some node) (hchild : node.isChild = true)
    (hr : node.redirect? = none)
    (hends : ∀ next nextNode, ¬ tree.Continues context node next nextNode) :
    tree.describe style context id optional =
      .ok (tree.lineAlong style context optional node [] node) := by
  rw [describe, node_eq_ok.2 hn, lineAlong_eq, lineEnd_eq]
  simp only [bind, Except.bind, hr, usable_eq_ok hw hn, List.map_nil, List.nil_append,
    Node.restOptional_eq_optionalBehind hchild, Node.fragment_eq_label, labelsBelow]
  rcases hbelow : tree.usableChildren context node with
    _ | ⟨⟨only, onlyNode⟩, _ | ⟨second, others⟩⟩
  · simp only [List.map_nil, lineOf_singleton]
    rfl
  · have hne := hlabels.label_ne_empty hw hn (hbelow ▸ List.mem_singleton_self _)
    rw [optionalBehind_of_not_continues hr hbelow (hends only onlyNode)]
    simp only [if_pos, List.map_cons, List.map_nil]
    rw [joinParts_eq_lineOf _ (UsageStyle.mark_ne_empty hne true)]
    rfl
  · have hne := hlabels.label_ne_empty hw hn (hbelow ▸ List.mem_cons_self)
    simp only [List.map_cons, alternatives_eq_lineOf _ _ _ hne, List.map_map]
    rfl

/-- A line that does not go on is its node and what stands behind it. -/
theorem describe_of_not_continues (optional : Bool) (hw : tree.WellFormed)
    (hstay : tree.RedirectsStay) (hlabels : tree.Labelled style) (hn : tree.node? id = some node)
    (hchild : node.isChild = true)
    (hends : ∀ next nextNode, ¬ tree.Continues context node next nextNode) :
    tree.describe style context id optional =
      .ok (tree.lineAlong style context optional node [] node) := by
  cases hr : node.redirect? with
  | some target =>
    have hlt := hstay id target ((redirect?_of_node? hn).trans hr)
    obtain ⟨goal, hgoal⟩ := exists_node?_of_lt_size hlt
    rw [describe_of_redirect hn hr, node_eq_ok.2 hgoal, lineAlong_eq, lineEnd_eq]
    simp only [Except.map, hr, Node.fragment_eq_label, hgoal, Option.toList_some, List.map_cons, List.map_nil,
      List.nil_append, lineOf_cons _ (List.cons_ne_nil _ _), lineOf_singleton, String.append_assoc]
  | none => exact describe_of_no_redirect optional hw hlabels hn hchild hr hends

/-- **The line of a node is written along its walk.** -/
theorem Walk.describe_eq (optional : Bool) (hw : tree.WellFormed) (hstay : tree.RedirectsStay)
    (hlabels : tree.Labelled style) (h : tree.Walk context node nodes last)
    (hn : tree.node? id = some node) (hchild : node.isChild = true) :
    tree.describe style context id optional =
      .ok (tree.lineAlong style context optional node nodes last) := by
  induction h generalizing id optional with
  | stop hends => exact describe_of_not_continues optional hw hstay hlabels hn hchild hends
  | step hnext _ ih =>
    have hnextChild := hw.isChild_of_mem_usableChildren hn hnext.mem
    rw [describe_of_goesOn hw hn (hnext.goesOn hn hchild), ih false hnext.node? hnextChild,
      Node.fragment_eq_label, lineAlong_eq]
    refine congrArg Except.ok (joinParts_lineOf (List.cons_ne_nil _ _) fun h => ?_)
    exact hlabels.label_ne_empty hw hn hnext.mem (List.cons.inj h).1

/-- **The form of a usage line.** From a node below the root there is exactly one walk, whatever
redirects there are, and if there is one child to go on with at its end, it may be left out. The line
of the node is written along the walk, and the usage of its parent has this line for it and no other
one. -/
theorem usage_eq_lineAlong_of_reachable (style : UsageStyle) (context : Context)
    (h : tree.Reachable) (hstay : tree.RedirectsStay) (hlabels : tree.Labelled style)
    (hid : id ≠ root) (hn : tree.node? id = some node) (hu : node.canUse context = true) :
    ∃ nodes last, tree.Walk context node nodes last ∧
      (∀ nodes' last', tree.Walk context node nodes' last' → nodes' = nodes ∧ last' = last) ∧
      (∀ next, last.redirect? = none → tree.usableChildren context last = [next] →
        last.optionalBehind = true) ∧
      (∀ optional, tree.describe style context id optional =
        .ok (tree.lineAlong style context optional node nodes last)) ∧
      ∀ parent owner, tree.node? parent = some owner → id ∈ owner.children.order →
        ∃ lines, tree.usage style context parent = .ok lines ∧ ∀ line, (id, line) ∈ lines ↔
          line = tree.lineAlong style context owner.command?.isSome node nodes last := by
  have hw := h.wellFormed
  obtain ⟨nodes, last, hwalk⟩ := exists_walk context hw hn
  have hdescribe (optional : Bool) := hwalk.describe_eq optional hw hstay hlabels hn
    (hw.isChild_of_ne_root hn hid)
  refine ⟨nodes, last, hwalk, fun _ _ hwalk' => hwalk.unique hwalk', fun next hr honly =>
    optionalBehind_of_not_continues hr honly (hwalk.not_continues _ _), hdescribe, ?_⟩
  intro parent owner hp hm
  obtain ⟨lines, hlines⟩ := exists_usage style context hw hstay (lt_size_of_node? hp)
  refine ⟨lines, hlines, fun line => ?_⟩
  rw [mem_usage_iff hlines hp, hdescribe, Except.ok.injEq, eq_comm (b := line)]
  exact and_iff_right ⟨⟨owner, hp, hm⟩, canUse_eq_ok.2 ⟨node, hn, hu⟩⟩

/-- A command that may be told to what it applies and how, or by a flag how loud it is. -/
def play : Except Violation (Tree Unit) := do
  let (tree, _) ← Tree.empty.add root ⟨.piece (.literal "play") { command := some () }, none,
    [⟨.piece (.literal "to") {}, none,
      [⟨.piece (.argument ⟨⟨"target", 0⟩, .text .word⟩) {}, none,
        [⟨.piece (.literal "fast") {}, none, []⟩, ⟨.piece (.literal "slow") {}, none, []⟩]⟩]⟩,
      ⟨.flag 'v', none, [⟨.piece (.literal "loud") {}, none, []⟩]⟩]⟩
  return tree

theorem reachable_of_play {tree : Tree Unit} (h : play = .ok tree) : tree.Reachable := by
  obtain ⟨⟨t₁, _⟩, h₁, h⟩ := exists_of_bind_eq_ok h
  cases h
  have leaf := fun symbol : Symbol Unit => Spec.drafted_of_no_children symbol none
  have htarget := ((CommandDraft.Drafted.argument ⟨⟨"target", 0⟩, .text .word⟩).child
    (leaf (.piece (.literal "fast") {})) rfl).child (leaf (.piece (.literal "slow") {})) rfl
  have hto := (CommandDraft.Drafted.literal "to").child (.command htarget) rfl
  have hflag := (FlagDraft.Drafted.flag 'v').child (leaf (.piece (.literal "loud") {}))
  have hplay := (((CommandDraft.Drafted.literal "play").withCommand rfl (some ())).child
    (.command hto) rfl).child (.flag hflag) rfl
  exact ReflTransGen.refl.tail (.add (.command hplay) h₁)

/-- The line of `play` ends with a choice that may be left out. Behind `play` everything may be left
out; one of the lines there goes on to a choice that has to be made, and the other one ends with a
word that may be left out. -/
theorem usage_eq_lineAlong_of_reachable_play :
    ∃ tree, play = .ok tree ∧ tree.Reachable ∧ tree.RedirectsStay ∧ tree.Labelled {} ∧
      ∀ entry ∈ [(root, 1, "play [to|-v]"), (1, 2, "[to] <target> (fast|slow)"),
          (1, 6, "[-v] [loud]")],
        ∃ owner node nodes last lines, tree.node? entry.1 = some owner ∧
          tree.node? entry.2.1 = some node ∧ tree.Walk .empty node nodes last ∧
          tree.usage {} .empty entry.1 = .ok lines ∧ entry.2 ∈ lines ∧
          tree.lineAlong {} .empty owner.command?.isSome node nodes last = entry.2.2 := by
  have hrun : play.map (fun tree => decide (tree.RedirectsLead ∧ tree.Labelled {} ∧
      ∀ entry ∈ [(root, 1, "play [to|-v]"), (1, 2, "[to] <target> (fast|slow)"),
          (1, 6, "[-v] [loud]")],
        entry.2.1 ≠ root ∧
          (tree.node? entry.1).any (fun owner => entry.2.1 ∈ owner.children.order) ∧
          (tree.node? entry.2.1).any (·.canUse .empty) ∧
          (tree.usage {} .empty entry.1).toOption.any (entry.2 ∈ ·))) = .ok true := by
    decide +kernel
  obtain ⟨tree, h, hd⟩ := exists_of_map_eq_ok hrun
  obtain ⟨hlead, hlabels, hentries⟩ := of_decide_eq_true hd
  have hreach := reachable_of_play h
  refine ⟨tree, h, hreach, hlead.stay, hlabels, ?_⟩
  rintro ⟨parent, id, line⟩ hentry
  obtain ⟨hid, howner, hnode, hline⟩ := hentries _ hentry
  obtain ⟨owner, ho, hm⟩ := (Option.any_eq_true _ _).1 howner
  obtain ⟨node, hn, hu⟩ := (Option.any_eq_true _ _).1 hnode
  obtain ⟨nodes, last, hwalk, -, -, -, husage⟩ :=
    usage_eq_lineAlong_of_reachable {} .empty hreach hlead.stay hlabels hid hn hu
  obtain ⟨lines, hlines, hiff⟩ := husage parent owner ho (of_decide_eq_true hm)
  rw [hlines] at hline
  have hmem : (id, line) ∈ lines := of_decide_eq_true hline
  exact ⟨owner, node, nodes, last, lines, ho, hn, hwalk, hlines, hmem, ((hiff line).1 hmem).symm⟩

end Tree

end CommandGrammar
