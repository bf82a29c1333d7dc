import CommandGrammar.Proofs.Dispatcher.Alias
import CommandGrammar.Proofs.Grammar.Childless

/-!
# Aliases of aliases

A redirect is followed where a literal or an argument has been read, and not where reading goes on
by way of another redirect. So an alias of an alias stops at the alias in the middle: a redirected
node has no children, and nothing behind the name can be read there.

Main statement: when this makes no difference (`Dispatcher.actsAs_iff_of_alias_of_alias`). An alias
of an alias does what the alias in the middle does exactly if the target of that one has the same
command, or neither has one, and no text may stand behind its name. If only the target has a command,
then the alias of the alias runs nothing (`Dispatcher.exists_opaque_alias_of_alias`).
-/

namespace CommandGrammar

variable {κ : Type}

/-! ### Lines that come to the same -/

/-- Two commands get to see the same values and flags, wherever they stand in their lines. -/
structure Bindings.SameValues (b b' : Bindings) : Prop where
  /-- The context is the same. -/
  context : b.context = b'.context
  /-- Every argument has the same value. -/
  arguments : ∀ a, b.find? a = b'.find? a
  /-- The flags are the same, in the same order. -/
  flags : b.flags.map FlagHit.flag = b'.flags.map FlagHit.flag

theorem Bindings.SameValues.behind {b b' : Bindings} (h : b.SameValues b')
    (front front' : List Char) : (b.behind front).SameValues (b'.behind front') where
  context := h.context
  arguments a := by rw [find?_behind, find?_behind, h.arguments]
  flags := by
    simp only [Bindings.behind, List.map_map]
    exact h.flags

/-- Two lines come to the same: both are refused, or both run nothing, or both run the same command
with the same values and flags. -/
inductive SameRun :
    Except Failure (Option (κ × Bindings)) → Except Failure (Option (κ × Bindings)) → Prop where
  /-- Both are refused. -/
  | refused (failure failure' : Failure) : SameRun (.error failure) (.error failure')
  /-- Both run nothing. -/
  | idle : SameRun (.ok none) (.ok none)
  /-- Both run the same command. -/
  | run (command : κ) {b b' : Bindings} : b.SameValues b' →
      SameRun (.ok (some (command, b))) (.ok (some (command, b')))

theorem SameRun.exists_of_error {failure : Failure} {r : Except Failure (Option (κ × Bindings))}
    (h : SameRun (.error failure) r) : ∃ failure', r = .error failure' := by
  cases h with
  | refused _ failure' => exact ⟨failure', rfl⟩

theorem not_sameRun_error {failure : Failure} {p : Option (κ × Bindings)} :
    ¬ SameRun (.ok p) (.error failure) := nofun

theorem SameRun.command_eq {p q : Option (κ × Bindings)} (h : SameRun (.ok p) (.ok q)) :
    p.map Prod.fst = q.map Prod.fst := by
  cases h with
  | idle => rfl
  | run command hb => rfl

namespace Tree

variable {tree : Tree κ} {context : Context} {id : NodeId} {anchor : Option NodeId} {c : Cursor}
  {t : Trail} {node : Node κ}

/-- Below a node without children nothing is read. -/
theorem matchFrom_of_childless (hw : tree.WellFormed) (hn : tree.node? id = some node)
    (hc : node.isChild = true) (hnil : node.children.order = []) :
    tree.matchFrom context id anchor c t = .ok (some ⟨id, c, t⟩) := by
  have hrelevant : node.relevantChildren c = [] := by
    refine List.eq_nil_iff_forall_not_mem.2 fun child hm => ?_
    have hchild := (hw.indexed id node hn).mem_order_of_relevant hm
    rw [hnil] at hchild
    cases hchild
  rw [matchFrom, node_eq_ok.2 hn]
  simp only [hc, ↓reduceIte, hrelevant, matchAny_nil]
  split <;> rfl

end Tree

namespace Dispatcher

variable {d : Dispatcher κ} {context : Context} {line nick name s : String} {a b target : NodeId}
  {m : Match} {next : Cursor}

theorem isTarget_of_topLiteral (h : d.tree.TopLiteral name a) : d.tree.isTarget a = true := by
  rw [Tree.isTarget_eq_hasKind, Tree.hasKind, h.2]
  rfl

/-- A line with text left over runs nothing. -/
theorem exists_select_of_not_isComplete (hp : d.parse context line = .ok (some m))
    (hm : m.isComplete = false) : ∃ failure, d.select context line = .error failure := by
  simp only [select, hp, selectMatch_of_not_isComplete hm]
  exact ⟨_, rfl⟩

/-- A line that is used up at a literal or an argument runs what is there. -/
theorem select_of_isTarget {anchor : Option NodeId} {c : Cursor} {t : Trail}
    (hp : d.parse context line = d.tree.matchFrom context target anchor c t) (hc : c.rest = [])
    (ht : d.tree.isTarget target = true) :
    d.select context line =
      .ok ((d.commandAt target).map fun command => (command, t.toBindings)) := by
  obtain ⟨node, hn, -⟩ := (Option.any_eq_true _ _).1 ht
  rw [Tree.matchFrom_of_end hn hc, if_pos (Tree.isChild_of_isTarget hn ht)] at hp
  have hselect := selectMatch_of_isTarget (m := ⟨target, c, t⟩) (Match.isComplete_iff.2 hc) ht
  simp only [select, hp, hselect]

/-- One that is used up anywhere else is refused. -/
theorem exists_select_of_not_isTarget {anchor : Option NodeId} {c : Cursor} {t : Trail}
    (hp : d.parse context line = d.tree.matchFrom context target anchor c t) (hc : c.rest = [])
    (ht : d.tree.isTarget target = false) : ∃ failure, d.select context line = .error failure := by
  unfold select
  cases hn : d.tree.node? target with
  | none =>
    rw [Tree.matchFrom, Tree.node, hn] at hp
    rw [hp]
    exact ⟨_, rfl⟩
  | some node =>
    rw [Tree.matchFrom_of_end hn hc] at hp
    rw [Tree.isTarget, hn] at ht
    obtain ⟨symbol?, requirement, children⟩ := node
    rcases symbol? with _ | ⟨p, ending⟩ | f
    · rw [hp]
      exact ⟨_, rfl⟩
    · cases ht
    · rw [hp]
      simp [selectMatch, Cursor.readable, hc, Tree.node, hn, Node.isChild, Node.isFlag,
        Symbol.isFlag]

/-- What stands behind the name of a literal below the root is matched where the literal leads. -/
theorem parse_eq_matchFrom (h : d.Reachable) (hname : d.tree.TopLiteral name a)
    (hu : d.tree.canUse a context = .ok true) (ht : IsToken name) (hs : EndsToken s)
    (hnext : (Cursor.atStart s).nextPart? = some next) :
    d.parse context (name ++ s) =
      d.tree.matchFrom context (d.tree.onward a) (some (d.tree.onward a))
        (next.behind name.toList)
        ((Trail.start context (.atStart s)).behind name.toList (.point 0)) :=
  Tree.matchAt_of_topLiteral h.tree.wellFormed hname hu ht hs hnext

/-- **A line with an alias of an alias ends at the alias in the middle**, whatever stands behind the
name. -/
theorem parse_of_alias_of_alias (h : d.Reachable) (hnick : d.tree.TopLiteral nick a)
    (hname : d.tree.TopLiteral name b) (ha : d.tree.redirect? a = some b)
    (hb : d.tree.redirect? b = some target) (hu : d.tree.canUse a context = .ok true)
    (ht : IsToken nick) (hs : EndsToken s)
    (hnext : (Cursor.atStart s).nextPart? = some next) :
    d.parse context (nick ++ s) = .ok (some ⟨b, next.behind nick.toList,
      (Trail.start context (.atStart s)).behind nick.toList (.point 0)⟩) := by
  have hw := h.tree.wellFormed
  obtain ⟨node, hn⟩ := Tree.exists_node?_of_lt_size (hw.bounds_of_isChild hname.1).2
  have hchild := Tree.isChild_of_isTarget hn (isTarget_of_topLiteral hname)
  have hsome : node.redirect?.isSome = true := by
    rw [← Tree.redirect?_of_node? hn, hb]
    rfl
  rw [parse_eq_matchFrom h hnick hu ht hs hnext, Tree.onward_of_redirect? ha]
  exact Tree.matchFrom_of_childless hw hn hchild (h.tree.redirectsChildless b node hn hsome)

/-! ### When the alias in the middle makes no difference -/

/-- Behind one name every text does what it does behind the other. -/
def ActsAs (d : Dispatcher κ) (context : Context) (nick name : String) : Prop :=
  ∀ s, EndsToken s → SameRun (d.select context (nick ++ s)) (d.select context (name ++ s))

/-- A name must stand alone: with any text behind it the line is refused. -/
def StandsAlone (d : Dispatcher κ) (context : Context) (name : String) : Prop :=
  ∀ text, text ≠ "" → ∃ failure, d.select context (name ++ (" " ++ text)) = .error failure

/-- What is found at the end of a line is what is bound there. -/
theorem sameRun_of_commandAt_eq {id id' : NodeId} {b b' : Bindings}
    (hc : d.commandAt id = d.commandAt id') (hb : b.SameValues b') :
    SameRun (.ok ((d.commandAt id).map fun command => (command, b)))
      (.ok ((d.commandAt id').map fun command => (command, b'))) := by
  rw [← hc]
  cases d.commandAt id with
  | none => exact .idle
  | some command => exact .run command hb

section Chain

variable (h : d.Reachable) (hnick : d.tree.TopLiteral nick a) (hname : d.tree.TopLiteral name b)
  (ha : d.tree.redirect? a = some b) (hb : d.tree.redirect? b = some target)
  (hua : d.tree.canUse a context = .ok true) (hub : d.tree.canUse b context = .ok true)
  (htnick : IsToken nick) (htname : IsToken name)

include h hnick hname ha hua htnick in
/-- A line that is used up by the alias of the alias runs what is bound to the alias in the
middle. -/
theorem select_of_alias_of_alias (hs : EndsToken s)
    (hnext : (Cursor.atStart s).nextPart? = some next) (hend : next.rest = []) :
    d.select context (nick ++ s) = .ok ((d.commandAt b).map fun command =>
      (command, (Trail.start context (.atStart s)).toBindings.behind nick.toList)) := by
  have hp := parse_eq_matchFrom h hnick hua htnick hs hnext
  rw [Tree.onward_of_redirect? ha] at hp
  rw [select_of_isTarget hp hend (isTarget_of_topLiteral hname)]
  rfl

include h hnick hname ha hb hua htnick in
/-- Text behind the alias of the alias is refused. -/
theorem standsAlone_of_alias_of_alias : d.StandsAlone context nick := by
  intro text htext
  have hp := parse_of_alias_of_alias h hnick hname ha hb hua htnick (endsToken_separator text)
    (nextPart?_separator text)
  refine exists_select_of_not_isComplete hp ?_
  simpa [Match.isComplete, Cursor.readable, Cursor.behind] using htext

include h hname hb hub htname in
/-- A line that is used up by the alias in the middle runs what is bound to its target. -/
theorem select_of_alias (hs : EndsToken s) (hnext : (Cursor.atStart s).nextPart? = some next)
    (hend : next.rest = []) (ht : d.tree.isTarget target = true) :
    d.select context (name ++ s) = .ok ((d.commandAt target).map fun command =>
      (command, (Trail.start context (.atStart s)).toBindings.behind name.toList)) := by
  have hp := parse_eq_matchFrom h hname hub htname hs hnext
  rw [Tree.onward_of_redirect? hb] at hp
  rw [select_of_isTarget hp hend ht]
  rfl

include h hnick hname ha hb hua hub htnick htname in
/-- What both lines do is the same if it is at their ends, and if neither takes text. -/
theorem actsAs_of_commandAt_eq (ht : d.tree.isTarget target = true)
    (hc : d.commandAt target = d.commandAt b) (halone : d.StandsAlone context name) :
    d.ActsAs context nick name := by
  have hend : ∀ {s next}, EndsToken s → (Cursor.atStart s).nextPart? = some next →
      next.rest = [] → SameRun (d.select context (nick ++ s)) (d.select context (name ++ s)) := by
    intro s next hs hnext hnil
    rw [select_of_alias_of_alias h hnick hname ha hua htnick hs hnext hnil,
      select_of_alias h hname hb hub htname hs hnext hnil ht]
    exact sameRun_of_commandAt_eq hc.symm (Bindings.SameValues.behind ⟨rfl, fun _ => rfl, rfl⟩ _ _)
  intro s hs
  obtain rfl | ⟨text, rfl⟩ := hs.eq_empty_or
  · exact hend hs (show _ = some (.atStart "") from rfl) rfl
  · by_cases htext : text = ""
    · exact hend hs (nextPart?_separator text) (by simp [htext])
    · obtain ⟨failure, hf⟩ :=
        standsAlone_of_alias_of_alias h hnick hname ha hb hua htnick text htext
      obtain ⟨failure', hf'⟩ := halone text htext
      rw [hf, hf']
      exact .refused failure failure'

include h hnick hname ha hb hua hub htnick htname in
theorem commandAt_eq_of_actsAs (hacts : d.ActsAs context nick name) :
    d.tree.isTarget target = true ∧ d.commandAt target = d.commandAt b := by
  have hnext : (Cursor.atStart "").nextPart? = some (.atStart "") := rfl
  have hrun := hacts "" endsToken_empty
  rw [select_of_alias_of_alias h hnick hname ha hua htnick endsToken_empty hnext rfl] at hrun
  cases ht : d.tree.isTarget target with
  | false =>
    have hp := parse_eq_matchFrom h hname hub htname endsToken_empty hnext
    rw [Tree.onward_of_redirect? hb] at hp
    obtain ⟨failure, hf⟩ := exists_select_of_not_isTarget hp rfl ht
    rw [hf] at hrun
    exact absurd hrun not_sameRun_error
  | true =>
    rw [select_of_alias h hname hb hub htname endsToken_empty hnext rfl ht] at hrun
    have hc := hrun.command_eq
    rw [Option.map_map, Option.map_map] at hc
    exact ⟨rfl, by simpa [Function.comp_def] using hc.symm⟩

include h hname hb hub htname in
/-- An alias of a target without children must stand alone. -/
theorem standsAlone_of_childless {node : Node κ} (hn : d.tree.node? target = some node)
    (hchild : node.isChild = true) (hnil : node.children.order = []) :
    d.StandsAlone context name := by
  intro text htext
  have hp := parse_eq_matchFrom h hname hub htname (endsToken_separator text)
    (nextPart?_separator text)
  rw [Tree.onward_of_redirect? hb,
    Tree.matchFrom_of_childless h.tree.wellFormed hn hchild hnil] at hp
  refine exists_select_of_not_isComplete hp ?_
  simpa [Match.isComplete, Cursor.readable, Cursor.behind] using htext

/-- **When an alias of an alias is transparent.** Let a literal below the root lead to another one by
its redirect, which has a redirect as well, and let both be usable in the context. Behind the first
name a line ends at the literal in the middle, whatever stands there. So both names do the same, with
all texts that end a token behind them, exactly if the target of the literal in the middle is a
literal or an argument with the same command, or as little a command, as that literal itself, and no
text may stand behind its name. The last holds if the target has no children. -/
theorem actsAs_iff_of_alias_of_alias (h : d.Reachable) (hnick : d.tree.TopLiteral nick a)
    (hname : d.tree.TopLiteral name b) (ha : d.tree.redirect? a = some b)
    (hb : d.tree.redirect? b = some target) (hua : d.tree.canUse a context = .ok true)
    (hub : d.tree.canUse b context = .ok true) (htnick : IsToken nick) (htname : IsToken name) :
    (∀ s next, EndsToken s → (Cursor.atStart s).nextPart? = some next →
      d.parse context (nick ++ s) = .ok (some ⟨b, next.behind nick.toList,
        (Trail.start context (.atStart s)).behind nick.toList (.point 0)⟩)) ∧
    (d.ActsAs context nick name ↔
      d.tree.isTarget target = true ∧ d.commandAt target = d.commandAt b ∧
        d.StandsAlone context name) ∧
    (∀ node, d.tree.node? target = some node → node.isChild = true → node.children.order = [] →
      d.StandsAlone context name) := by
  refine ⟨?_, ⟨?_, ?_⟩, ?_⟩
  · intro s next hs hnext
    exact parse_of_alias_of_alias h hnick hname ha hb hua htnick hs hnext
  · intro hacts
    obtain ⟨ht, hc⟩ :=
      commandAt_eq_of_actsAs h hnick hname ha hb hua hub htnick htname hacts
    refine ⟨ht, hc, ?_⟩
    intro text htext
    obtain ⟨failure, hf⟩ :=
      standsAlone_of_alias_of_alias h hnick hname ha hb hua htnick text htext
    have hrun := hacts _ (endsToken_separator text)
    rw [hf] at hrun
    exact hrun.exists_of_error
  · rintro ⟨ht, hc, halone⟩
    exact actsAs_of_commandAt_eq h hnick hname ha hb hua hub htnick htname ht hc halone
  · intro node hn hchild hnil
    exact standsAlone_of_childless h hname hb hub htname hn hchild hnil

end Chain

/-- A literal with a command, an alias of it, and an alias of the alias. The alias in the middle may
have a command of its own. -/
def fooWithAliases (command : Option Unit) : Except Violation (Dispatcher Unit) := do
  let foo ← (literal "foo").executes ()
  let (d, id) ← ({} : Dispatcher Unit).register foo
  let f ← command.elim (.ok (literal "f")) (literal "f").executes
  let f ← f.redirects id
  let (d, id) ← d.register f
  let g ← (literal "g").redirects id
  let (d, _) ← d.register g
  return d

theorem reachable_of_fooWithAliases {command : Option Unit} {d : Dispatcher Unit}
    (h : fooWithAliases command = .ok d) : d.Reachable := by
  obtain ⟨foo, hfoo, h⟩ := exists_of_bind_eq_ok h
  obtain ⟨⟨d₁, id₁⟩, h₁, h⟩ := exists_of_bind_eq_ok h
  obtain ⟨f, hf, h⟩ := exists_of_bind_eq_ok h
  obtain ⟨nick, hnick, h⟩ := exists_of_bind_eq_ok h
  obtain ⟨⟨d₂, id₂⟩, h₂, h⟩ := exists_of_bind_eq_ok h
  obtain ⟨g, hg, h⟩ := exists_of_bind_eq_ok h
  obtain ⟨⟨d₃, _⟩, h₃, h⟩ := exists_of_bind_eq_ok h
  cases h
  have hfoo := (CommandDraft.Drafted.literal "foo").executes hfoo
  have hf : f.Drafted := by
    cases command with
    | none => exact Except.ok.inj hf ▸ CommandDraft.Drafted.literal "f"
    | some command => exact (CommandDraft.Drafted.literal "f").executes hf
  have hnick := hf.redirects hnick
  have hg := (CommandDraft.Drafted.literal "g").redirects hg
  exact ((((Reachable.start {}).register hfoo h₁).register hnick h₂).register hg h₃)

/-- How the two names of `fooWithAliases` stand in its grammar. -/
theorem chain_of_fooWithAliases {command : Option Unit} {d : Dispatcher Unit}
    (h : fooWithAliases command = .ok d)
    (hf : d.tree.kind? 2 = some (.literal "f")) (hg : d.tree.kind? 3 = some (.literal "g"))
    (hroot : (d.tree.node? Tree.root).map (·.children.order) = some [1, 2, 3]) :
    d.Reachable ∧ d.tree.TopLiteral "g" 3 ∧ d.tree.TopLiteral "f" 2 := by
  obtain ⟨node, hn, horder⟩ := Option.map_eq_some_iff.1 hroot
  have hchild : ∀ id ∈ [1, 2, 3], d.tree.IsChild Tree.root id := by
    intro id hid
    exact ⟨node, hn, horder ▸ hid⟩
  exact ⟨reachable_of_fooWithAliases h, ⟨hchild 3 (by decide), hg⟩, ⟨hchild 2 (by decide), hf⟩⟩

/-- If the alias in the middle has the command of its target, then the alias of the alias does what
it does. -/
theorem actsAs_iff_of_alias_of_alias_sameCommand :
    ∃ d : Dispatcher Unit, fooWithAliases (some ()) = .ok d ∧ d.Reachable ∧
      d.tree.TopLiteral "g" 3 ∧ d.tree.TopLiteral "f" 2 ∧ d.tree.redirect? 3 = some 2 ∧
      d.tree.redirect? 2 = some 1 ∧ d.tree.canUse 3 .empty = .ok true ∧
      d.tree.canUse 2 .empty = .ok true ∧ IsToken "g" ∧ IsToken "f" ∧
      d.ActsAs .empty "g" "f" ∧ (d.command? .empty "g").map Prod.fst = some () := by
  have hrun : (fooWithAliases (some ())).map (fun d =>
      ((d.tree.kind? 2, d.tree.kind? 3), (d.tree.node? Tree.root).map (·.children.order),
        (d.tree.redirect? 3, d.tree.redirect? 2), (d.tree.canUse 3 .empty, d.tree.canUse 2 .empty),
        (d.commandAt 1, d.commandAt 2), d.tree.isTarget 1,
        (d.tree.node? 1).map fun node => (node.isChild, node.children.order))) =
      .ok ((some (.literal "f"), some (.literal "g")), some [1, 2, 3], (some 2, some 1),
        (.ok true, .ok true), (some (), some ()), true, some (true, [])) := by
    cbv
  have hcommand : (fooWithAliases (some ())).map (fun d =>
      (d.command? .empty "g").map Prod.fst) = .ok (some ()) := by
    cbv
  obtain ⟨d, h, hd⟩ := exists_of_map_eq_ok hrun
  rw [h] at hcommand
  simp only [Prod.mk.injEq] at hd
  obtain ⟨⟨hf, hg⟩, hroot, ⟨hr₃, hr₂⟩, ⟨hu₃, hu₂⟩, ⟨hc₁, hc₂⟩, htarget, hnode⟩ := hd
  obtain ⟨node, hn, hleaf⟩ := Option.map_eq_some_iff.1 hnode
  obtain ⟨hchild, hnil⟩ := Prod.mk.inj hleaf
  obtain ⟨hreach, hnick, hname⟩ := chain_of_fooWithAliases h hf hg hroot
  obtain ⟨-, hiff, halone⟩ := actsAs_iff_of_alias_of_alias hreach hnick hname
    hr₃ hr₂ hu₃ hu₂ (by decide) (by decide)
  exact ⟨d, h, hreach, hnick, hname, hr₃, hr₂, hu₃, hu₂, by decide, by decide,
    hiff.2 ⟨htarget, hc₁.trans hc₂.symm, halone node hn hchild hnil⟩, Except.ok.inj hcommand⟩

/-- **An alias of an alias is not transparent**: the name of the alias in the middle runs the command
of its target, and the alias of it runs nothing. -/
theorem exists_opaque_alias_of_alias :
    ∃ (d : Dispatcher Unit) (bindings : Bindings), fooWithAliases none = .ok d ∧ d.Reachable ∧
      d.tree.TopLiteral "g" 3 ∧ d.tree.TopLiteral "f" 2 ∧ d.tree.redirect? 3 = some 2 ∧
      d.tree.redirect? 2 = some 1 ∧ d.tree.canUse 3 .empty = .ok true ∧
      d.tree.canUse 2 .empty = .ok true ∧ d.select .empty "f" = .ok (some ((), bindings)) ∧
      d.select .empty "g" = .ok none ∧ ¬ d.ActsAs .empty "g" "f" := by
  have hrun : (fooWithAliases none).map (fun d =>
      ((d.tree.kind? 2, d.tree.kind? 3), (d.tree.node? Tree.root).map (·.children.order),
        (d.tree.redirect? 3, d.tree.redirect? 2),
        (d.tree.canUse 3 .empty, d.tree.canUse 2 .empty))) =
      .ok ((some (.literal "f"), some (.literal "g")), some [1, 2, 3], (some 2, some 1),
        (.ok true, .ok true)) := by
    cbv
  have hselect : (fooWithAliases none).map (fun d =>
      ((d.select .empty "f").map (Option.map Prod.fst), (d.select .empty "g").map Option.isNone)) =
      .ok (.ok (some ()), .ok true) := by
    cbv
  obtain ⟨d, h, hd⟩ := exists_of_map_eq_ok hrun
  rw [h] at hselect
  simp only [Prod.mk.injEq] at hd
  obtain ⟨⟨hf, hg⟩, hroot, ⟨hr₃, hr₂⟩, hu₃, hu₂⟩ := hd
  obtain ⟨hselectF, hselectG⟩ := Prod.mk.inj (Except.ok.inj hselect)
  obtain ⟨hreach, hnick, hname⟩ := chain_of_fooWithAliases h hf hg hroot
  obtain ⟨_, hselectF, hcommand⟩ := exists_of_map_eq_ok hselectF
  obtain ⟨⟨_, bindings⟩, rfl, rfl⟩ := Option.map_eq_some_iff.1 hcommand
  obtain ⟨_, hselectG, hnone⟩ := exists_of_map_eq_ok hselectG
  obtain rfl := Option.isNone_iff_eq_none.1 hnone
  refine ⟨d, bindings, h, hreach, hnick, hname, hr₃, hr₂, hu₃, hu₂, hselectF, hselectG, ?_⟩
  intro hacts
  have hsame := hacts "" endsToken_empty
  rw [String.append_empty, String.append_empty, hselectF, hselectG] at hsame
  cases hsame.command_eq

end Dispatcher

end CommandGrammar
