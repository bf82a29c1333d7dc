import CommandGrammar.Proofs.Usage.Chain

/-!
# Usage lines that are read as they are written

Usage lines are made by following children, and lines are matched by following children, but by two
different walks. Where there is nothing to choose and nothing to leave out they agree.

Main statement (`Dispatcher.listsAs_iff_and_exists_parse`): take literals one below the other from
the root on, the last of which has no command, and a child from which on everything is required. The
line of all these names is matched as a whole and ends at the last literal. And it is the usage line
of the child, unless there are no usage lines at all, which is so exactly if the line of some other
child that may be used ends at a redirect to a node that is not there
(`Dispatcher.exists_stray_sibling`).

Other children do not matter for matching: a literal whose name is the next token is the only child
that is tried, however many arguments, flags and hidden literals there are beside it.
-/

namespace CommandGrammar

variable {κ : Type}

namespace Tree

variable {tree : Tree κ} {context : Context} {id child first last start : NodeId} {node : Node κ}
  {c : Cursor} {t : Trail} {name : String} {names path : List String}

/-! ### Paths of literals -/

/-- Literals that may be used and have no redirect lead by their names from a node to another one. -/
inductive LiteralPath (tree : Tree κ) (context : Context) :
    NodeId → List String → NodeId → Prop where
  /-- No literal leads anywhere else. -/
  | nil (id : NodeId) : LiteralPath tree context id [] id
  /-- One literal more at the front. -/
  | cons {id child last : NodeId} {name : String} {names : List String} :
      tree.IsChild id child → tree.PlainLiteral context name child →
      LiteralPath tree context child names last →
      LiteralPath tree context id (name :: names) last

theorem LiteralPath.append (h : tree.LiteralPath context id path start)
    (h' : tree.LiteralPath context start names last) :
    tree.LiteralPath context id (path ++ names) last := by
  induction h with
  | nil => exact h'
  | cons hchild hname _ ih => exact .cons hchild hname (ih h')

/-- A chain that begins at a child of a node is a path from that node. -/
theorem RequiredChain.literalPath (h : tree.RequiredChain context first names last)
    (hchild : tree.IsChild id first) : tree.LiteralPath context id names last := by
  induction h generalizing id with
  | last hname _ => exact .cons hchild hname (.nil _)
  | cons hname _ honly _ ih => exact .cons hchild hname (ih ((honly _).2 rfl).1)

/-- A literal is what its name leads to. -/
theorem WellFormed.find?_literals (hw : tree.WellFormed) (hn : tree.node? id = some node)
    (hchild : tree.IsChild id child) (hname : tree.PlainLiteral context name child) :
    node.children.byName.find? name = some child ∧
      node.children.literals.find? name = some child := by
  have hi := hw.indexed id node hn
  obtain ⟨owner, ho, hm⟩ := hchild
  obtain rfl := Option.some.inj (hn.symm.trans ho)
  have hbyName := (hi.byName name child).2 ⟨hm, by rw [name?, hname.kind]; rfl⟩
  exact ⟨hbyName, (hi.literals name child).2 ⟨hbyName, by rw [hasKind, hname.kind]; rfl⟩⟩

theorem LiteralPath.leads (hw : tree.WellFormed) (h : tree.LiteralPath context id names last) :
    tree.Leads id names last := by
  induction h with
  | nil => exact leads_nil_iff.2 rfl
  | cons hchild hname _ ih =>
    obtain ⟨owner, ho, hm⟩ := hchild
    refine leads_cons_iff.2 ⟨_, child?_eq_ok_some_iff.2 ⟨owner, ho, ?_⟩, ih⟩
    exact (hw.find?_literals ho ⟨owner, ho, hm⟩ hname).1

/-! ### Matching along them -/

/-- The name of a literal is matched by the literal alone, and the other names are matched below. -/
theorem exists_matchFrom_of_plainLiteral (anchor : Option NodeId) (t : Trail)
    (hw : tree.WellFormed) (hn : tree.node? id = some node) (hchild : tree.IsChild id child)
    (hname : tree.PlainLiteral context name child) (htoken : IsToken name)
    (hc : c.rest = joinWords (name :: names)) :
    ∃ childNode next span, tree.node? child = some childNode ∧ childNode.isChild = true ∧
      next.rest = joinWords names ∧
      tree.matchFrom context id anchor c t =
        (tree.matchFrom context child (some child) next (t.addLiteral span)).map
          (·.or (if node.isChild then some ⟨id, c, t⟩ else none)) := by
  obtain ⟨childNode, ending, hchildNode, hs, hu, hr⟩ := hname.exists_node
  obtain ⟨next, hnext, -, -, hrest, -⟩ := Cursor.exists_nextPart?_of_joinWords hc htoken.2
  have hrelevant : node.relevantChildren c = [child] := by
    rw [Node.relevantChildren, Cursor.token_of_joinWords hc htoken.2, String.ofList_toList,
      (hw.find?_literals hn hchild hname).2]
  have hreadable : c.rest ≠ [] := by
    rw [hc, ne_eq, joinWords_eq_nil_iff]
    rintro (hnil | hempty)
    · cases hnil
    · exact htoken.1 (List.cons.inj hempty).1
  exact ⟨childNode, next, _, hchildNode, by rw [Node.isChild, hs]; rfl, hrest,
    matchFrom_of_literal hn hrelevant hreadable hchildNode hs hu hr hnext⟩

/-- **Names that lead along literals are matched along them**, and nothing but the literals is
recorded. -/
theorem LiteralPath.exists_matchFrom (anchor : Option NodeId) (t : Trail) (hw : tree.WellFormed)
    (h : tree.LiteralPath context id names last) (hnames : ∀ name ∈ names, IsToken name)
    (hn : tree.node? id = some node) (hbelow : names ≠ [] ∨ node.isChild = true)
    (hc : c.rest = joinWords names) :
    ∃ e literals, e.rest = [] ∧
      tree.matchFrom context id anchor c t = .ok (some ⟨last, e, { t with literals }⟩) := by
  induction h generalizing node anchor c t with
  | nil =>
    refine ⟨c, t.literals, hc, ?_⟩
    rw [matchFrom_of_end hn hc, if_pos (hbelow.resolve_left (by simp))]
  | cons hchild hname _ ih =>
    obtain ⟨htoken, hnames⟩ := List.forall_mem_cons.1 hnames
    obtain ⟨childNode, next, span, hchildNode, hisChild, hrest, hmatch⟩ :=
      exists_matchFrom_of_plainLiteral anchor t hw hn hchild hname htoken hc
    obtain ⟨e, literals, he, hfound⟩ := ih (some _) _ hnames hchildNode (.inr hisChild) hrest
    refine ⟨e, literals, he, ?_⟩
    rw [hmatch, hfound]
    rfl

end Tree

namespace Dispatcher

variable {d : Dispatcher κ} {context : Context} {id start first last : NodeId}
  {names path : List String} {line : String}

/-- A usage line with the names of a path in front. -/
def lineBehind (path : List String) (line : String) : String :=
  if (lineOf path).isEmpty then line else lineOf path ++ String.singleton separator ++ line

theorem lineBehind_lineOf (hne : names ≠ []) (hnames : ∀ name ∈ path, name ≠ "") :
    lineBehind path (lineOf names) = lineOf (path ++ names) := by
  unfold lineBehind
  by_cases hnil : path = []
  · rw [if_pos ((isEmpty_lineOf hnames).2 hnil), hnil, List.nil_append]
  · rw [if_neg fun hempty => hnil ((isEmpty_lineOf hnames).1 hempty), lineOf_append hnil hne]

/-- The usage lines of a path that leads to a node are those of the node behind the path. -/
theorem usageLines_eq (hleads : d.tree.Leads Tree.root path start) :
    d.usageLines context path = (d.usage context start).map fun pairs =>
      some (pairs.map fun (_, line) => lineBehind path line) := by
  unfold Tree.Leads at hleads
  simp only [usageLines, Tree.find?, hleads, bind, Except.bind]
  cases d.usage context start <;> rfl

/-- The usage lines of a path have one for a child of the node there, and it is this one. -/
def ListsAs (d : Dispatcher κ) (context : Context) (path : List String) (id : NodeId)
    (line : String) : Prop :=
  ∃ start pairs, d.tree.Leads Tree.root path start ∧ d.usage context start = .ok pairs ∧
    d.usageLines context path = .ok (some (pairs.map fun (_, text) => lineBehind path text)) ∧
    (∃ text, (id, text) ∈ pairs) ∧ ∀ text, (id, text) ∈ pairs → lineBehind path text = line

/-- **What is required is listed as it is written**, unless nothing is listed there at all. -/
theorem listsAs_iff (hw : d.tree.WellFormed)
    (hpath : d.tree.LiteralPath context Tree.root path start) (hc : ¬ d.tree.HasCommand start)
    (hfirst : d.tree.IsChild start first)
    (hchain : d.tree.RequiredChain context first names last)
    (hnames : ∀ name ∈ path ++ names, IsToken name) :
    d.ListsAs context path first (lineOf (path ++ names)) ↔
      ∀ child, d.tree.HasUsable context start child → ¬ d.tree.EndsAstray context child := by
  have hleads := hpath.leads hw
  obtain ⟨owner, ho, -⟩ := id hfirst
  rw [← Tree.exists_usage_iff d.style hw (Tree.lt_size_of_node? ho)]
  constructor
  · rintro ⟨_, pairs, hleads', hpairs, -⟩
    exact ⟨pairs, hleads.id_eq hleads' ▸ hpairs⟩
  · rintro ⟨pairs, hpairs⟩
    obtain ⟨hpathNames, hchainNames⟩ := List.forall_mem_append.1 hnames
    have hdescribe := Tree.describe_of_requiredChain d.style hw hchain hchainNames
    have hmem := Tree.mem_of_usage hpairs hc first
    refine ⟨start, pairs, hleads, hpairs, ?_, ⟨_, (hmem _).2 ⟨⟨hfirst, hchain.canUse⟩, hdescribe⟩⟩,
      ?_⟩
    · rw [usageLines_eq hleads, usage, hpairs]
      rfl
    · intro text htext
      obtain rfl := Except.ok.inj (hdescribe.symm.trans ((hmem text).1 htext).2)
      exact lineBehind_lineOf hchain.ne_nil fun name hm => (hpathNames name hm).1

/-- Where a child is not listed, the usage lines are asked for a node that is not there. -/
theorem listsAs_or_exists_error (hw : d.tree.WellFormed)
    (hpath : d.tree.LiteralPath context Tree.root path start) (hc : ¬ d.tree.HasCommand start)
    (hfirst : d.tree.IsChild start first)
    (hchain : d.tree.RequiredChain context first names last)
    (hnames : ∀ name ∈ path ++ names, IsToken name) :
    d.ListsAs context path first (lineOf (path ++ names)) ∨
      ∃ violation, d.usageLines context path = .error violation := by
  obtain ⟨owner, ho, -⟩ := id hfirst
  rw [listsAs_iff hw hpath hc hfirst hchain hnames,
    ← Tree.exists_usage_iff d.style hw (Tree.lt_size_of_node? ho), usageLines_eq (hpath.leads hw),
    usage]
  cases d.tree.usage d.style context start with
  | ok lines => exact .inl ⟨lines, rfl⟩
  | error violation => exact .inr ⟨violation, rfl⟩

/-- A line that leads along literals ends at the last of them, with nothing else in it. -/
theorem exists_parse_of_literalPath (hw : d.tree.WellFormed)
    (hpath : d.tree.LiteralPath context Tree.root names last) (hne : names ≠ [])
    (hnames : ∀ name ∈ names, IsToken name) :
    ∃ m, d.parse context (lineOf names) = .ok (some m) ∧ m.isComplete = true ∧ m.node = last ∧
      m.trail.arguments = ∅ ∧ m.trail.flags = [] := by
  obtain ⟨owner, ho, -⟩ := hw.exists_root
  have hrest : (Cursor.atStart (lineOf names)).rest = joinWords names := toList_lineOf names
  obtain ⟨e, literals, he, hmatch⟩ := hpath.exists_matchFrom none
    (.start context (.atStart (lineOf names))) hw hnames ho (.inl hne) hrest
  exact ⟨_, hmatch, by simp [Match.isComplete, Cursor.readable, he], rfl, rfl, rfl⟩

/-- **What is required is read as it is listed.** Literals one below the other lead from the root to
a node without a command, and from a child of it on everything is required. The line of all their
names is matched as a whole and ends at the last literal, without arguments and flags. It is the
usage line of the child exactly if the line of no child of that node that may be used ends at a
redirect to a node that is not there, and otherwise there are no usage lines. -/
theorem listsAs_iff_and_exists_parse (h : d.tree.Reachable)
    (hpath : d.tree.LiteralPath context Tree.root path start) (hc : ¬ d.tree.HasCommand start)
    (hfirst : d.tree.IsChild start first)
    (hchain : d.tree.RequiredChain context first names last)
    (hnames : ∀ name ∈ path ++ names, IsToken name) :
    (d.ListsAs context path first (lineOf (path ++ names)) ↔
      ∀ child, d.tree.HasUsable context start child → ¬ d.tree.EndsAstray context child) ∧
    (d.ListsAs context path first (lineOf (path ++ names)) ∨
      ∃ violation, d.usageLines context path = .error violation) ∧
    ∃ m, d.parse context (lineOf (path ++ names)) = .ok (some m) ∧ m.isComplete = true ∧
      m.node = last ∧ m.trail.arguments = ∅ ∧ m.trail.flags = [] := by
  refine ⟨listsAs_iff h.wellFormed hpath hc hfirst hchain hnames,
    listsAs_or_exists_error h.wellFormed hpath hc hfirst hchain hnames, ?_⟩
  exact exists_parse_of_literalPath h.wellFormed (hpath.append (hchain.literalPath hfirst))
    (List.append_ne_nil_of_right_ne_nil path hchain.ne_nil) hnames

/-- `git remote add`, and beside `remote` a word. -/
def gitRemote : Except Violation (Dispatcher Unit) := do
  let add ← (literal "add").executes ()
  let remote ← (literal "remote").child add.toSpec
  let word ← (argument ⟨⟨"word", 0⟩, .text .word⟩).executes ()
  let git ← (literal "git").child remote.toSpec
  let git ← git.child word.toSpec
  let (d, _) ← ({} : Dispatcher Unit).register git
  return d

theorem reachable_of_gitRemote {d : Dispatcher Unit} (h : gitRemote = .ok d) : d.Reachable := by
  obtain ⟨add, hadd, h⟩ := exists_of_bind_eq_ok h
  obtain ⟨remote, hremote, h⟩ := exists_of_bind_eq_ok h
  obtain ⟨word, hword, h⟩ := exists_of_bind_eq_ok h
  obtain ⟨git, hgit, h⟩ := exists_of_bind_eq_ok h
  obtain ⟨git', hgit', h⟩ := exists_of_bind_eq_ok h
  obtain ⟨⟨d₁, _⟩, h₁, h⟩ := exists_of_bind_eq_ok h
  cases h
  have hadd := Spec.Drafted.command ((CommandDraft.Drafted.literal "add").executes hadd)
  have hremote := Spec.Drafted.command ((CommandDraft.Drafted.literal "remote").child hadd hremote)
  have hword := Spec.Drafted.command
    ((CommandDraft.Drafted.argument ⟨⟨"word", 0⟩, .text .word⟩).executes hword)
  have hgit := ((CommandDraft.Drafted.literal "git").child hremote hgit).child hword hgit'
  exact (Reachable.start {}).register hgit h₁

/-- What is required behind `git` is listed and read as `git remote add`. -/
theorem listsAs_iff_and_exists_parse_gitRemote :
    ∃ d : Dispatcher Unit, gitRemote = .ok d ∧ d.tree.Reachable ∧
      d.tree.LiteralPath .empty Tree.root ["git"] 1 ∧ ¬ d.tree.HasCommand 1 ∧
      d.tree.IsChild 1 2 ∧ d.tree.RequiredChain .empty 2 ["remote", "add"] 3 ∧
      (∀ name ∈ ["git"] ++ ["remote", "add"], IsToken name) ∧
      d.ListsAs .empty ["git"] 2 (lineOf ["git", "remote", "add"]) ∧
      ∃ m, d.parse .empty (lineOf ["git", "remote", "add"]) = .ok (some m) ∧
        m.isComplete = true ∧ m.node = 3 := by
  have hlead : gitRemote.map (fun d => decide d.tree.RedirectsLead) = .ok true := by
    decide +kernel
  have hnodes : gitRemote.map (fun d =>
      ([0, 1, 2, 3].map fun id => (d.tree.node? id).map (·.children.order),
        [1, 2, 3].map fun id => (d.tree.kind? id, d.tree.redirect? id, d.tree.canUse id .empty),
        [1, 2].map fun id => (d.tree.node? id).map Node.command?)) =
        .ok ([some [1], some [2, 4], some [3], some []],
          [(some (.literal "git"), none, .ok true), (some (.literal "remote"), none, .ok true),
            (some (.literal "add"), none, .ok true)], [some none, some none]) := by
    cbv
  obtain ⟨d, h, hd⟩ := exists_of_map_eq_ok hnodes
  rw [h] at hlead
  have hlead : d.tree.RedirectsLead := of_decide_eq_true (Except.ok.inj hlead)
  simp only [List.map_cons, List.map_nil, Prod.mk.injEq, List.cons.injEq, and_true] at hd
  obtain ⟨⟨h₀, h₁, h₂, h₃⟩, ⟨hgit, hremote, hadd⟩, hc₁, hc₂⟩ := hd
  obtain ⟨n₀, h₀, ho₀⟩ := Option.map_eq_some_iff.1 h₀
  obtain ⟨n₁, h₁, ho₁⟩ := Option.map_eq_some_iff.1 h₁
  obtain ⟨n₂, h₂, ho₂⟩ := Option.map_eq_some_iff.1 h₂
  obtain ⟨n₃, h₃, ho₃⟩ := Option.map_eq_some_iff.1 h₃
  have hgit : d.tree.PlainLiteral .empty "git" 1 := ⟨hgit.1, hgit.2.1, hgit.2.2⟩
  have hremote : d.tree.PlainLiteral .empty "remote" 2 := ⟨hremote.1, hremote.2.1, hremote.2.2⟩
  have hadd : d.tree.PlainLiteral .empty "add" 3 := ⟨hadd.1, hadd.2.1, hadd.2.2⟩
  have hpath : d.tree.LiteralPath .empty Tree.root ["git"] 1 :=
    .cons ⟨n₀, h₀, by simp [ho₀]⟩ hgit (.nil 1)
  have hchain : d.tree.RequiredChain .empty 2 ["remote", "add"] 3 := by
    refine .cons hremote (Tree.not_hasCommand hc₂) (fun child => ?_)
      (.last hadd fun child => ?_)
    · rw [Tree.hasUsable_iff h₂, ho₂, List.mem_singleton]
      exact and_iff_left_of_imp fun e => e ▸ hadd.usable
    · rw [Tree.hasUsable_iff h₃, ho₃]
      simp
  have hreach := (reachable_of_gitRemote h).tree
  have hfirst : d.tree.IsChild 1 2 := ⟨n₁, h₁, by simp [ho₁]⟩
  have hnames : ∀ name ∈ ["git"] ++ ["remote", "add"], IsToken name := by decide
  obtain ⟨hlists, -, m, hm, hcomplete, hnode, -⟩ :=
    listsAs_iff_and_exists_parse hreach hpath (Tree.not_hasCommand hc₁) hfirst hchain hnames
  exact ⟨d, h, hreach, hpath, Tree.not_hasCommand hc₁, hfirst, hchain, hnames,
    hlists.2 fun _ _ => hlead.stay.not_endsAstray, m, hm, hcomplete, hnode⟩

/-- **One redirect to nowhere hides all usage lines beside it**, however little they have to do with
it. -/
theorem exists_stray_sibling :
    ∃ tree : Tree Unit, Tree.redirectGiven 42 = .ok tree ∧ tree.Reachable ∧
      tree.LiteralPath .empty Tree.root [] Tree.root ∧ ¬ tree.HasCommand Tree.root ∧
      tree.IsChild Tree.root 1 ∧ tree.RequiredChain .empty 1 ["foo"] 1 ∧ IsToken "foo" ∧
      ({ tree } : Dispatcher Unit).usageLines .empty [] = .error (.unknownNode 3 42) ∧
      ¬ ({ tree } : Dispatcher Unit).ListsAs .empty [] 1 (lineOf ["foo"]) := by
  have hnodes : (Tree.redirectGiven 42).map (fun tree =>
      ([0, 1].map fun id => (tree.node? id).map (·.children.order),
        (tree.kind? 1, tree.redirect? 1, tree.canUse 1 .empty),
        (tree.node? 0).map Node.command?,
        ({ tree } : Dispatcher Unit).usageLines .empty [])) =
        .ok ([some [1, 2], some []], (some (.literal "foo"), none, .ok true), some none,
          .error (.unknownNode 3 42)) := by
    cbv
  obtain ⟨tree, h, hd⟩ := exists_of_map_eq_ok hnodes
  simp only [List.map_cons, List.map_nil, Prod.mk.injEq, List.cons.injEq, and_true] at hd
  obtain ⟨⟨h₀, h₁⟩, ⟨hkind, hr, hu⟩, hc, hlines⟩ := hd
  obtain ⟨n₀, h₀, ho₀⟩ := Option.map_eq_some_iff.1 h₀
  obtain ⟨n₁, h₁, ho₁⟩ := Option.map_eq_some_iff.1 h₁
  refine ⟨tree, h, Tree.reachable_of_redirectGiven h, .nil _, Tree.not_hasCommand hc,
    ⟨n₀, h₀, by simp [ho₀]⟩, .last ⟨hkind, hr, hu⟩ fun child => ?_, by decide, hlines, ?_⟩
  · rw [Tree.hasUsable_iff h₁, ho₁]
    simp
  · rintro ⟨_, _, _, _, hsome, _⟩
    rw [hlines] at hsome
    cases hsome

end Dispatcher

end CommandGrammar
