import CommandGrammar.Proofs.Dispatcher.Restriction
import CommandGrammar.Proofs.Dispatcher.Words
import CommandGrammar.Proofs.Grammar.Frame

/-!
# What a usage line follows

The line of a node goes on with the line of another one if that is the only way to go on and has to
be taken (`Tree.GoesOn`). So a line follows a chain of nodes, and how it ends is decided by the last
of them.

Main statements: a node has a line exactly if the chain from it does not end at a redirect to a node
that is not there (`Tree.exists_describe_iff`), and the line of a chain of literals with nothing
behind it is their names (`Tree.describe_of_requiredChain`).

Both are inductions along the chain, on which every node comes later in the grammar than the one
before it.
-/

namespace CommandGrammar

open Relation

variable {κ : Type}

/-! ### Words as a line -/

/-- The line of some words, with one separator between two of them. -/
def lineOf (words : List String) : String := (String.singleton separator).intercalate words

theorem toList_lineOf (words : List String) : (lineOf words).toList = joinWords words := by
  rw [lineOf, String.toList_intercalate, String.toList_singleton, joinWords]

theorem lineOf_singleton (word : String) : lineOf [word] = word := by
  rw [← String.toList_inj, toList_lineOf, joinWords_singleton]

theorem lineOf_cons (word : String) {words : List String} (hne : words ≠ []) :
    lineOf (word :: words) = word ++ String.singleton separator ++ lineOf words := by
  rw [← String.toList_inj, toList_lineOf, joinWords_cons word hne, String.toList_append,
    String.toList_append, toList_lineOf, String.toList_singleton, List.append_assoc,
    List.singleton_append]

theorem lineOf_append {words others : List String} (hne : words ≠ []) (hothers : others ≠ []) :
    lineOf (words ++ others) = lineOf words ++ String.singleton separator ++ lineOf others := by
  induction words with
  | nil => exact absurd rfl hne
  | cons word words ih =>
    by_cases hnil : words = []
    · rw [hnil, List.singleton_append, lineOf_cons word hothers, lineOf_singleton]
    · rw [List.cons_append, lineOf_cons word (by simp [hnil]), ih hnil, lineOf_cons word hnil]
      simp only [String.append_assoc]

/-- Only no words and one empty word make an empty line. -/
theorem isEmpty_lineOf_iff {words : List String} :
    (lineOf words).isEmpty = true ↔ words = [] ∨ words = [""] := by
  rw [String.isEmpty_iff, ← String.toList_eq_nil_iff, toList_lineOf, joinWords_eq_nil_iff]

/-- Words that are not empty do not make an empty line. -/
theorem isEmpty_lineOf {words : List String} (hwords : ∀ word ∈ words, word ≠ "") :
    (lineOf words).isEmpty = true ↔ words = [] := by
  rw [isEmpty_lineOf_iff]
  refine or_iff_left ?_
  rintro rfl
  exact hwords "" (List.mem_singleton_self "") rfl

/-- Joining a word to the line of others puts it in front. -/
theorem joinParts_lineOf {word : String} {words : List String} (hne : words ≠ [])
    (hempty : words ≠ [""]) : joinParts word (lineOf words) = lineOf (word :: words) := by
  rw [joinParts, if_neg fun h => (isEmpty_lineOf_iff.1 h).elim hne hempty, lineOf_cons word hne]

namespace Tree

variable {tree : Tree κ} {style : UsageStyle} {context : Context}
  {id child next first last start target : NodeId}
  {optional : Bool} {node : Node κ} {name : String} {names path : List String}

/-! ### The children that may be used -/

/-- A node lies directly below another one and may be used. -/
def HasUsable (tree : Tree κ) (context : Context) (id child : NodeId) : Prop :=
  tree.IsChild id child ∧ tree.canUse child context = .ok true

theorem hasUsable_iff (hn : tree.node? id = some node) :
    tree.HasUsable context id child ↔
      child ∈ node.children.order ∧ tree.canUse child context = .ok true := by
  refine and_congr_left' ⟨?_, fun hm => ⟨node, hn, hm⟩⟩
  rintro ⟨owner, ho, hm⟩
  exact Option.some.inj (ho.symm.trans hn) ▸ hm

theorem hasUsable_iff_mem_usableChildren (hn : tree.node? id = some node) :
    tree.HasUsable context id child ↔ child ∈ (tree.usableChildren context node).map Prod.fst := by
  rw [hasUsable_iff hn, canUse_eq_ok, List.mem_map]
  simp only [Prod.exists, mem_usableChildren_iff]
  constructor
  · rintro ⟨hm, childNode, hc, hu⟩
    exact ⟨child, childNode, ⟨hm, hc, hu⟩, rfl⟩
  · rintro ⟨_, childNode, ⟨hm, hc, hu⟩, rfl⟩
    exact ⟨hm, childNode, hc, hu⟩

/-- Each child is listed once. -/
theorem nodup_usableChildren (context : Context) (hw : tree.WellFormed)
    (hn : tree.node? id = some node) :
    ((tree.usableChildren context node).map Prod.fst).Nodup := by
  rw [map_fst_of_usable (usable_eq_ok hw hn)]
  exact (hw.indexed id node hn).nodup.filter _

theorem usable_eq_nil (hw : tree.WellFormed) (hn : tree.node? id = some node)
    (h : ∀ child, ¬ tree.HasUsable context id child) :
    tree.usable context node.children.order = .ok [] := by
  rw [usable_eq_ok hw hn, List.map_eq_nil_iff.1 (List.eq_nil_iff_forall_not_mem.2 fun child hm =>
    h child ((hasUsable_iff_mem_usableChildren hn).2 hm))]

theorem exists_usable_eq_singleton (hw : tree.WellFormed) (hn : tree.node? id = some node)
    (h : ∀ child, tree.HasUsable context id child ↔ child = next) :
    ∃ nextNode, tree.usable context node.children.order = .ok [(next, nextNode)] := by
  have hnodup := nodup_usableChildren context hw hn
  have hperm : ((tree.usableChildren context node).map Prod.fst).Perm [next] :=
    (List.perm_ext_iff_of_nodup hnodup (List.nodup_singleton next)).2 fun child => by
      rw [← hasUsable_iff_mem_usableChildren hn, h, List.mem_singleton]
  obtain ⟨⟨_, nextNode⟩, hsingle, rfl⟩ := List.map_eq_singleton_iff.1 (List.perm_singleton.1 hperm)
  exact ⟨nextNode, hsingle ▸ usable_eq_ok hw hn⟩

theorem not_hasCommand (h : (tree.node? id).map Node.command? = some none) :
    ¬ tree.HasCommand id := by
  rintro ⟨node, command, hn, hc⟩
  simp [hn, hc] at h

/-! ### One step of a line -/

/-- The line of a node goes on with the line of another one: there is no redirect, and the other one
is the only way to go on and has to be taken. -/
structure GoesOn (tree : Tree κ) (context : Context) (id next : NodeId) : Prop where
  /-- There is no redirect. -/
  redirect : tree.redirect? id = none
  /-- What follows has to be taken. -/
  required : ∃ node, tree.node? id = some node ∧ node.restOptional = false
  /-- It is the other node. -/
  only : ∀ child, tree.HasUsable context id child ↔ child = next

theorem GoesOn.hasUsable (h : tree.GoesOn context id next) : tree.HasUsable context id next :=
  (h.only next).2 rfl

theorem GoesOn.eq (h : tree.GoesOn context id next) (h' : tree.GoesOn context id child) :
    child = next :=
  (h.only child).1 h'.hasUsable

/-- With a redirect, a line ends with the redirect's target. -/
theorem describe_of_redirect (hn : tree.node? id = some node) (hr : node.redirect? = some target) :
    tree.describe style context id optional = (tree.node target).map fun goal =>
      style.mark optional (node.fragment style) ++ String.singleton separator ++ style.redirect ++
        String.singleton separator ++ goal.fragment style := by
  rw [describe, node_eq_ok.2 hn]
  simp only [bind, Except.bind, hr]
  cases tree.node target <;> rfl

/-- With nothing behind it, a line ends with the node. -/
theorem describe_of_no_usable (hw : tree.WellFormed) (hn : tree.node? id = some node)
    (hr : tree.redirect? id = none) (h : ∀ child, ¬ tree.HasUsable context id child) :
    tree.describe style context id optional = .ok (style.mark optional (node.fragment style)) := by
  rw [redirect?_of_node? hn] at hr
  rw [describe, node_eq_ok.2 hn]
  simp only [bind, Except.bind, hr, usable_eq_nil hw hn h]
  rfl

/-- Where a line goes on, it does with the whole line of the next node. -/
theorem describe_of_goesOn (hw : tree.WellFormed) (hn : tree.node? id = some node)
    (h : tree.GoesOn context id next) :
    tree.describe style context id optional = (tree.describe style context next false).map
      (joinParts (style.mark optional (node.fragment style))) := by
  obtain ⟨nextNode, hnext⟩ := exists_usable_eq_singleton hw hn h.only
  obtain ⟨_, hn', hrequired⟩ := h.required
  obtain rfl := Option.some.inj (hn.symm.trans hn')
  have hr := h.redirect
  rw [redirect?_of_node? hn] at hr
  rw [describe, node_eq_ok.2 hn]
  simp only [bind, Except.bind, hr, hnext, hrequired, Bool.false_eq_true, ↓reduceIte,
    dif_pos (hw.bounds_of_isChild h.hasUsable.1)]
  cases tree.describe style context next false <;> rfl

/-- Any other line ends with the node and its children. -/
theorem exists_describe_of_not_goesOn (hw : tree.WellFormed) (hn : tree.node? id = some node)
    (hr : tree.redirect? id = none) (h : ∀ next, ¬ tree.GoesOn context id next) :
    ∃ line, tree.describe style context id optional = .ok line := by
  have hr' := hr
  rw [redirect?_of_node? hn] at hr'
  rw [describe, node_eq_ok.2 hn]
  simp only [bind, Except.bind, hr', usable_eq_ok hw hn]
  rcases hchildren : tree.usableChildren context node with _ | ⟨⟨only, onlyNode⟩, _ | _⟩
  · exact ⟨_, rfl⟩
  · cases hrequired : node.restOptional with
    | true => exact ⟨_, rfl⟩
    | false =>
      refine absurd ⟨hr, ⟨node, hn, hrequired⟩, fun child => ?_⟩ (h only)
      rw [hasUsable_iff_mem_usableChildren hn, hchildren, List.map_cons, List.map_nil,
        List.mem_singleton]
  · exact ⟨_, rfl⟩

/-! ### Where a line ends -/

/-- The chain of a line ends at a redirect to a node that is not there. -/
def EndsAstray (tree : Tree κ) (context : Context) (id : NodeId) : Prop :=
  ∃ last target, ReflTransGen (tree.GoesOn context) id last ∧ tree.redirect? last = some target ∧
    tree.node? target = none

/-- The chain of a line ends where the one from the next node ends. -/
theorem endsAstray_iff_of_goesOn (h : tree.GoesOn context id next) :
    tree.EndsAstray context id ↔ tree.EndsAstray context next := by
  constructor
  · rintro ⟨last, target, hreach, hr, hnone⟩
    rcases hreach.cases_head with rfl | ⟨other, hother, hreach⟩
    · rw [h.redirect] at hr
      cases hr
    · exact ⟨last, target, h.eq hother ▸ hreach, hr, hnone⟩
  · rintro ⟨last, target, hreach, hr, hnone⟩
    exact ⟨last, target, hreach.head h, hr, hnone⟩

/-- A line that does not go on ends at its node. -/
theorem endsAstray_iff_of_not_goesOn (h : ∀ next, ¬ tree.GoesOn context id next) :
    tree.EndsAstray context id ↔
      ∃ target, tree.redirect? id = some target ∧ tree.node? target = none := by
  constructor
  · rintro ⟨last, target, hreach, hr, hnone⟩
    rcases hreach.cases_head with rfl | ⟨other, hother, -⟩
    · exact ⟨target, hr, hnone⟩
    · exact absurd hother (h other)
  · rintro ⟨target, hr, hnone⟩
    exact ⟨id, target, .refl, hr, hnone⟩

/-- **A node has a line exactly if its chain does not end astray.** -/
theorem exists_describe_iff (style : UsageStyle) (optional : Bool) (hw : tree.WellFormed)
    (hid : id < tree.size) :
    (∃ line, tree.describe style context id optional = .ok line) ↔
      ¬ tree.EndsAstray context id := by
  induction hm : tree.size - id using Nat.strongRecOn generalizing id optional with
  | ind n ih =>
    obtain ⟨node, hn⟩ := exists_node?_of_lt_size hid
    by_cases hgoes : ∃ next, tree.GoesOn context id next
    · obtain ⟨next, hnext⟩ := hgoes
      obtain ⟨hlt, hsize⟩ := hw.bounds_of_isChild hnext.hasUsable.1
      rw [endsAstray_iff_of_goesOn hnext, describe_of_goesOn hw hn hnext,
        ← ih _ (hm ▸ Nat.sub_lt_sub_left hid hlt) false hsize rfl]
      cases tree.describe style context next false <;> simp [Except.map]
    · have hends := not_exists.1 hgoes
      rw [endsAstray_iff_of_not_goesOn hends]
      cases hr : tree.redirect? id with
      | none =>
        simpa using exists_describe_of_not_goesOn hw hn hr hends
      | some target =>
        rw [describe_of_redirect hn ((redirect?_of_node? hn).symm.trans hr), Tree.node]
        cases hgoal : tree.node? target <;> simp [hgoal, Except.map]

theorem RedirectsStay.not_endsAstray (h : tree.RedirectsStay) : ¬ tree.EndsAstray context id := by
  rintro ⟨last, target, -, hr, hnone⟩
  obtain ⟨goal, hgoal⟩ := exists_node?_of_lt_size (h last target hr)
  rw [hnone] at hgoal
  cases hgoal

/-- Some nodes have lines exactly if none of them that may be used ends astray. -/
theorem exists_describeAll_iff (hw : tree.WellFormed) {ids : List NodeId}
    (hids : ∀ id ∈ ids, id < tree.size) :
    (∃ lines, tree.describeAll style context optional ids = .ok lines) ↔
      ∀ id ∈ ids, tree.canUse id context = .ok true → ¬ tree.EndsAstray context id := by
  induction ids with
  | nil => simp [describeAll]
  | cons id ids ih =>
    obtain ⟨hid, hids⟩ := List.forall_mem_cons.1 hids
    obtain ⟨node, hn⟩ := exists_node?_of_lt_size hid
    rw [List.forall_mem_cons, ← ih hids, describeAll]
    have hu : tree.canUse id context = .ok (node.canUse context) := canUse_eq_ok.2 ⟨node, hn, rfl⟩
    rw [hu]
    cases node.canUse context with
    | false => simp [bind, Except.bind]
    | true =>
      rw [← exists_describe_iff style optional hw hid]
      cases tree.describe style context id optional with
      | error violation => simp [bind, Except.bind]
      | ok line =>
        cases tree.describeAll style context optional ids <;>
          simp [bind, Except.bind, pure, Except.pure]

/-- The lines of some nodes are the lines of those that may be used. -/
theorem mem_of_describeAll {ids : List NodeId} {lines : List (NodeId × String)} {line : String}
    (h : tree.describeAll style context optional ids = .ok lines) :
    (id, line) ∈ lines ↔ id ∈ ids ∧ tree.canUse id context = .ok true ∧
      tree.describe style context id optional = .ok line := by
  induction ids generalizing lines with
  | nil =>
    obtain rfl := Except.ok.inj h
    simp
  | cons first ids ih =>
    obtain ⟨usable, hu, h⟩ := exists_of_bind_eq_ok h
    cases usable with
    | false =>
      rw [ih h, List.mem_cons]
      refine and_congr_left fun hid => ⟨.inr, fun hmem => hmem.resolve_left ?_⟩
      rintro rfl
      rw [hu] at hid
      cases hid.1
    | true =>
      obtain ⟨firstLine, hline, h⟩ := exists_of_bind_eq_ok h
      obtain ⟨others, hothers, h⟩ := exists_of_bind_eq_ok h
      obtain rfl := Except.ok.inj h
      rw [List.mem_cons, List.mem_cons, ih hothers, Prod.mk.injEq]
      constructor
      · rintro (⟨rfl, rfl⟩ | ⟨hm, hline⟩)
        · exact ⟨.inl rfl, hu, hline⟩
        · exact ⟨.inr hm, hline⟩
      · rintro ⟨rfl | hm, hu', hline'⟩
        · exact .inl ⟨rfl, Except.ok.inj (hline'.symm.trans hline)⟩
        · exact .inr ⟨hm, hu', hline'⟩

/-- **A node has a usage exactly if the line of no child that may be used ends astray.** -/
theorem exists_usage_iff (style : UsageStyle) (hw : tree.WellFormed) (hid : id < tree.size) :
    (∃ lines, tree.usage style context id = .ok lines) ↔
      ∀ child, tree.HasUsable context id child → ¬ tree.EndsAstray context child := by
  obtain ⟨node, hn⟩ := exists_node?_of_lt_size hid
  rw [usage, node_eq_ok.2 hn]
  simp only [bind, Except.bind]
  rw [exists_describeAll_iff hw fun child hm => (hw.bounds_of_isChild ⟨node, hn, hm⟩).2]
  simp only [hasUsable_iff hn, and_imp]

/-- The usage of a node is the lines of the children that may be used. What stands at their front may
be left out if the node has a command. -/
theorem mem_usage_iff {lines : List (NodeId × String)}
    (h : tree.usage style context id = .ok lines) (hn : tree.node? id = some node) (child : NodeId)
    (line : String) :
    (child, line) ∈ lines ↔ tree.HasUsable context id child ∧
      tree.describe style context child node.command?.isSome = .ok line := by
  rw [usage, node_eq_ok.2 hn] at h
  rw [mem_of_describeAll h, hasUsable_iff hn, and_assoc]

/-- Below a node without a command nothing at the front of a line may be left out. -/
theorem mem_of_usage {lines : List (NodeId × String)}
    (h : tree.usage style context id = .ok lines) (hc : ¬ tree.HasCommand id) (child : NodeId)
    (line : String) :
    (child, line) ∈ lines ↔
      tree.HasUsable context id child ∧ tree.describe style context child false = .ok line := by
  obtain ⟨node, hn, -⟩ := exists_of_bind_eq_ok h
  have hn := node_eq_ok.1 hn
  have hnone : node.command? = none := by
    by_contra hsome
    obtain ⟨command, hcommand⟩ := Option.ne_none_iff_exists'.1 hsome
    exact hc ⟨node, command, hn, hcommand⟩
  rw [mem_usage_iff h hn, hnone, Option.isSome_none]

/-! ### Chains of literals -/

/-- A literal of a name that may be used and has no redirect. -/
structure PlainLiteral (tree : Tree κ) (context : Context) (name : String) (id : NodeId) : Prop where
  /-- It is a literal of that name. -/
  kind : tree.kind? id = some (.literal name)
  /-- There is no redirect. -/
  redirect : tree.redirect? id = none
  /-- It may be used. -/
  usable : tree.canUse id context = .ok true

theorem PlainLiteral.exists_node (h : tree.PlainLiteral context name id) :
    ∃ node ending, tree.node? id = some node ∧
      node.symbol? = some (.piece (.literal name) ending) ∧ node.canUse context = true ∧
      node.redirect? = none := by
  obtain ⟨node, hn, hu⟩ := canUse_eq_ok.1 h.usable
  obtain ⟨ending, hs⟩ := exists_symbol_of_kind h.kind hn
  exact ⟨node, ending, hn, hs, hu, (redirect?_of_node? hn).symm.trans h.redirect⟩

theorem fragment_of_literal {ending : Ending κ}
    (hs : node.symbol? = some (.piece (.literal name) ending)) : node.fragment style = name := by
  simp [Node.fragment, Node.name, hs, Symbol.name, Piece.name]

/-- Literals by name, each of them without a redirect and the only child of the one before it that
may be used. Those before the last one have no commands, and below the last one nothing may be
used. -/
inductive RequiredChain (tree : Tree κ) (context : Context) :
    NodeId → List String → NodeId → Prop where
  /-- There is nothing behind a literal. -/
  | last {id : NodeId} {name : String} : tree.PlainLiteral context name id →
      (∀ child, ¬ tree.HasUsable context id child) → RequiredChain tree context id [name] id
  /-- One literal more at the front. -/
  | cons {id next last : NodeId} {name : String} {names : List String} :
      tree.PlainLiteral context name id → ¬ tree.HasCommand id →
      (∀ child, tree.HasUsable context id child ↔ child = next) →
      RequiredChain tree context next names last →
      RequiredChain tree context id (name :: names) last

theorem RequiredChain.canUse (h : tree.RequiredChain context id names last) :
    tree.canUse id context = .ok true := by
  cases h with
  | last hname _ => exact hname.usable
  | cons hname _ _ _ => exact hname.usable

theorem RequiredChain.ne_nil (h : tree.RequiredChain context id names last) : names ≠ [] := by
  cases h <;> simp

/-- A literal without a command goes on with the only child that may be used. -/
theorem PlainLiteral.goesOn (h : tree.PlainLiteral context name id) (hc : ¬ tree.HasCommand id)
    (honly : ∀ child, tree.HasUsable context id child ↔ child = next) :
    tree.GoesOn context id next := by
  obtain ⟨node, ending, hn, hs, -, -⟩ := h.exists_node
  refine ⟨h.redirect, ⟨node, hn, ?_⟩, honly⟩
  have hending : node.ending? = some ending := by rw [Node.ending?, hs]; rfl
  rw [Node.restOptional, hending, Option.all_some, Option.isSome_eq_false_iff,
    Option.isNone_iff_eq_none]
  by_contra hsome
  obtain ⟨command, hcommand⟩ := Option.ne_none_iff_exists'.1 hsome
  exact hc ⟨node, command, hn, by rw [Node.command?, hending]; exact hcommand⟩

/-- **The line of a chain of literals is their names**, with one separator between two of them. -/
theorem describe_of_requiredChain (style : UsageStyle) (hw : tree.WellFormed)
    (h : tree.RequiredChain context id names last) (hnames : ∀ name ∈ names, IsToken name) :
    tree.describe style context id false = .ok (lineOf names) := by
  induction h with
  | last hname hnone =>
    obtain ⟨node, ending, hn, hs, -, -⟩ := hname.exists_node
    rw [describe_of_no_usable hw hn hname.redirect hnone, fragment_of_literal hs,
      lineOf_singleton]
    rfl
  | cons hname hc honly hchain ih =>
    obtain ⟨node, ending, hn, hs, -, -⟩ := hname.exists_node
    rw [describe_of_goesOn hw hn (hname.goesOn hc honly), fragment_of_literal hs,
      ih fun name hm => hnames name (List.mem_cons_of_mem _ hm), Except.map]
    refine congrArg Except.ok (joinParts_lineOf hchain.ne_nil fun hempty => ?_)
    exact (hnames "" (List.mem_cons_of_mem _ (hempty ▸ List.mem_singleton_self ""))).1 rfl

end Tree

end CommandGrammar
