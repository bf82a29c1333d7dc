import CommandGrammar.Proofs.Dispatcher.Run
import CommandGrammar.Proofs.Match.Front

/-!
# Aliases

An alias is a literal with a redirect. This module says what a line does that begins with the name
of a literal below the root (`Tree.TopLiteral`): what stands behind the name is matched below the
node to which the literal leads, as if there were nothing else (`Tree.matchAt_of_topLiteral`).

Main statement: an alias is transparent (`Dispatcher.exists_found_of_alias`). Behind the name of a
literal and behind that of its alias the same text gives the same match or the same failure, only
that all offsets are those of the line at hand, and runs the same command with the same values.

The alias and its target take different ways through the search: the target is a candidate among
the children of the root, the alias ends the search at once. Both come together where the search goes
on below the target, and from there on only the text in front differs (`Tree.matchFrom_behind`).
-/

namespace CommandGrammar

variable {κ : Type}

/-- A name that can be a token of a line: it is not empty and has no separator in it. -/
def IsToken (name : String) : Prop := name ≠ "" ∧ separator ∉ name.toList

instance (name : String) : Decidable (IsToken name) := inferInstanceAs (Decidable (_ ∧ _))

/-- A text ends a token: it is empty or begins with a separator. -/
def EndsToken (s : String) : Prop := ∀ next ∈ s.toList.head?, next = separator

theorem EndsToken.exists_nextPart? {s : String} (h : EndsToken s) :
    ∃ next, (Cursor.atStart s).nextPart? = some next := by
  unfold Cursor.nextPart? Cursor.peek
  cases hs : (Cursor.atStart s).rest.head? with
  | none => exact ⟨_, rfl⟩
  | some next => exact ⟨_, if_pos (h next hs)⟩

theorem endsToken_empty : EndsToken "" := by
  intro next hnext
  cases hnext

theorem endsToken_separator (text : String) : EndsToken (" " ++ text) := by
  intro next hnext
  rw [String.toList_append] at hnext
  exact (Option.some.inj hnext).symm

theorem EndsToken.eq_empty_or {s : String} (h : EndsToken s) :
    s = "" ∨ ∃ text, s = " " ++ text := by
  cases hl : s.toList with
  | nil => exact .inl (String.toList_eq_nil_iff.1 hl)
  | cons next rest =>
    have hnext : next = separator := h next (by rw [hl]; rfl)
    refine .inr ⟨String.ofList rest, String.toList_inj.1 ?_⟩
    simp [hl, hnext, separator]

theorem nextPart?_separator (text : String) :
    (Cursor.atStart (" " ++ text)).nextPart? = some ⟨[separator], text.toList⟩ := by
  simp [Cursor.nextPart?, Cursor.peek, Cursor.advance, Cursor.atStart, separator]

/-- Text without separators is part of the token that it begins. -/
theorem takeWhile_append_of_notMem {text : List Char} (h : separator ∉ text) (rest : List Char) :
    (text ++ rest).takeWhile (· != separator) = text ++ rest.takeWhile (· != separator) := by
  refine List.takeWhile_append_of_pos fun c hc => ?_
  rw [bne_iff_ne]
  rintro rfl
  exact h hc

/-- A name is the first token of a line that begins with it and goes on with the end of a token. -/
theorem IsToken.token_eq {name s : String} (hname : IsToken name) (hs : EndsToken s) :
    (Cursor.atStart (name ++ s)).token = name.toList := by
  have hend : s.toList.takeWhile (· != separator) = [] := by
    cases hl : s.toList with
    | nil => rfl
    | cons next rest =>
      have hnext : next = separator := hs next (by rw [hl]; rfl)
      simp [hnext]
  rw [Cursor.token, Cursor.atStart, String.toList_append, takeWhile_append_of_notMem hname.2, hend,
    List.append_nil]

/-- What follows a name is the rest of the line, with the name in front. -/
theorem Cursor.skipBytes_name (name s : String) :
    (Cursor.atStart (name ++ s)).skipBytes (byteLength name.toList) =
      (Cursor.atStart s).behind name.toList := by
  simp only [Cursor.skipBytes, Cursor.atStart, Cursor.behind, String.toList_append,
    takeBytes_byteLength_append, dropBytes_byteLength_append, List.nil_append, List.append_nil]

namespace Tree

variable {tree : Tree κ} {context : Context} {name s : String} {id : NodeId} {next : Cursor}

/-- A literal of a name lies directly below the root. -/
def TopLiteral (tree : Tree κ) (name : String) (id : NodeId) : Prop :=
  tree.IsChild root id ∧ tree.kind? id = some (.literal name)

theorem canUse_eq_ok {usable : Bool} :
    tree.canUse id context = .ok usable ↔
      ∃ node, tree.node? id = some node ∧ node.canUse context = usable := by
  unfold Tree.canUse
  constructor
  · intro h
    obtain ⟨node, hn, hu⟩ := exists_of_map_eq_ok h
    exact ⟨node, node_eq_ok.1 hn, hu⟩
  · rintro ⟨node, hn, hu⟩
    rw [node_eq_ok.2 hn, ← hu]
    rfl

theorem exists_symbol_of_kind {node : Node κ} (hk : tree.kind? id = some (.literal name))
    (hn : tree.node? id = some node) :
    ∃ ending, node.symbol? = some (.piece (.literal name) ending) := by
  rw [kind?, symbol?_of_node? hn] at hk
  obtain ⟨symbol, hs, hkind⟩ := Option.map_eq_some_iff.1 hk
  rcases symbol with ⟨text | a, ending⟩ | f
  · obtain rfl : text = name := Kind.literal.inj hkind
    exact ⟨ending, hs⟩
  · cases hkind
  · cases hkind

/-- The literals below the root are those that it keeps by name. -/
theorem topLiteral_iff (hw : tree.WellFormed) :
    tree.TopLiteral name id ↔
      ∃ node, tree.node? root = some node ∧ node.children.literals.find? name = some id := by
  constructor
  · rintro ⟨⟨node, hn, hm⟩, hk⟩
    have hi := hw.indexed root node hn
    refine ⟨node, hn, (hi.literals name id).2 ⟨(hi.byName name id).2 ⟨hm, ?_⟩, ?_⟩⟩
    · rw [name?, hk]
      rfl
    · rw [hasKind, hk]
      rfl
  · rintro ⟨node, hn, hl⟩
    have hi := hw.indexed root node hn
    obtain ⟨hname, hkind⟩ := (hi.literals name id).1 hl
    obtain ⟨hm, hname⟩ := (hi.byName name id).1 hname
    refine ⟨⟨node, hn, hm⟩, ?_⟩
    obtain ⟨kind, hk, rfl⟩ := Option.map_eq_some_iff.1 hname
    rw [hasKind, hk] at hkind
    cases kind with
    | literal text => exact hk
    | argument a => cases hkind
    | flag c => cases hkind

/-- A line that begins with the name of a literal below the root is matched against it alone. -/
theorem TopLiteral.relevantChildren_eq (hw : tree.WellFormed) (h : tree.TopLiteral name id)
    {node : Node κ} (hn : tree.node? root = some node) {c : Cursor} (hc : c.token = name.toList) :
    node.relevantChildren c = [id] := by
  obtain ⟨owner, ho, hl⟩ := (topLiteral_iff hw).1 h
  obtain rfl := Option.some.inj (hn.symm.trans ho)
  rw [Node.relevantChildren, hc, String.ofList_toList, hl]

/-- The trail behind the name of a literal is the one of the rest of the line, with the name in
front. -/
theorem addLiteral_start (context : Context) (name s : String) :
    (Trail.start context (.atStart (name ++ s))).addLiteral
        ((Cursor.atStart (name ++ s)).spanTo ((Cursor.atStart s).behind name.toList)) =
      (Trail.start context (.atStart s)).behind name.toList (.point 0) := by
  simp only [Trail.start, Trail.addLiteral, Trail.behind, Bindings.behind, Cursor.atStart,
    Cursor.spanTo, Cursor.index, Cursor.behind, Span.point, Span.behind, Span.hull, byteLength_nil,
    List.append_nil, List.map_nil, Nat.add_zero, Nat.zero_max, Nat.max_zero, Nat.min_zero]
  rfl

/-- A literal that may be used is read by its name. -/
theorem step_literal {node : Node κ} {ending : Ending κ} {c : Cursor} {t : Trail}
    (hn : tree.node? id = some node) (hs : node.symbol? = some (.piece (.literal name) ending))
    (hu : node.canUse context = true)
    (hnext : (c.skipBytes (byteLength name.toList)).nextPart? = some next) :
    tree.step context id c t =
      .ok (some ⟨node, next, t.addLiteral (c.spanTo (c.skipBytes (byteLength name.toList)))⟩) := by
  simp only [step, node_eq_ok.2 hn, hs, hu, ↓reduceIte, Symbol.read, hnext]

/-- At the end of a line a match ends where it is. -/
theorem matchFrom_of_end {node : Node κ} {anchor : Option NodeId} {c : Cursor} {t : Trail}
    (hn : tree.node? id = some node) (hc : c.rest = []) :
    tree.matchFrom context id anchor c t =
      .ok (if node.isChild then some ⟨id, c, t⟩ else none) := by
  rw [matchFrom, node_eq_ok.2 hn]
  simp [hc]

/-- At the end of a line, too, reading on below a piece is matching from there. -/
theorem resume_eq_matchFrom {step : Step κ} (hn : tree.node? id = some step.node)
    (hc : step.node.isChild = true) (hf : step.node.isFlag = false) (anchor : Option NodeId) :
    tree.resume context anchor id step =
      tree.matchFrom context id (some id) step.cursor step.trail := by
  unfold resume
  simp only [hf, Bool.false_eq_true, ↓reduceIte]
  cases he : step.cursor.readable with
  | true => rfl
  | false =>
    have hnil : step.cursor.rest = [] := by simpa [Cursor.readable] using he
    rw [matchFrom_of_end hn hnil, if_pos hc]
    rfl

/-- A text that may match one child only, which matches and has no redirect, goes on below it. -/
theorem matchFrom_of_step {owner : Node κ} {child : NodeId} {step : Step κ}
    {anchor : Option NodeId} {c : Cursor} {t : Trail} (ho : tree.node? id = some owner)
    (hchildren : owner.relevantChildren c = [child]) (hrest : c.rest ≠ [])
    (hstep : tree.step context child c t = .ok (some step)) (hr : step.node.redirect? = none)
    (hchild : step.node.isChild = true) (hflag : step.node.isFlag = false) :
    tree.matchFrom context id anchor c t =
      (tree.matchFrom context child (some child) step.cursor step.trail).map
        (·.or (if owner.isChild then some ⟨id, c, t⟩ else none)) := by
  rw [matchFrom, node_eq_ok.2 ho]
  simp only [dif_pos hrest, hchildren]
  rw [matchAny_cons_of_resume hstep hr,
    resume_eq_matchFrom (exists_read_of_step hstep).1 hchild hflag]
  cases tree.matchFrom context child (some child) step.cursor step.trail with
  | error failure => rfl
  | ok found =>
    simp only [matchAny_nil]
    cases found <;> rfl

/-- A token that is the name of a literal without a redirect is matched against it alone, and what
stands behind it is matched below. -/
theorem matchFrom_of_literal {owner node : Node κ} {child : NodeId} {ending : Ending κ}
    {anchor : Option NodeId} {c : Cursor} {t : Trail} (ho : tree.node? id = some owner)
    (hchildren : owner.relevantChildren c = [child]) (hrest : c.rest ≠ [])
    (hn : tree.node? child = some node)
    (hs : node.symbol? = some (.piece (.literal name) ending)) (hu : node.canUse context = true)
    (hr : node.redirect? = none)
    (hnext : (c.skipBytes (byteLength name.toList)).nextPart? = some next) :
    tree.matchFrom context id anchor c t =
      (tree.matchFrom context child (some child) next
        (t.addLiteral (c.spanTo (c.skipBytes (byteLength name.toList))))).map
          (·.or (if owner.isChild then some ⟨id, c, t⟩ else none)) := by
  have hchild : node.isChild = true := by rw [Node.isChild, hs]; rfl
  have hflag : node.isFlag = false := by rw [Node.isFlag, hs]; rfl
  exact matchFrom_of_step ho hchildren hrest (step_literal hn hs hu hnext) hr hchild hflag

/-- **What stands behind the name of a literal below the root is matched where the literal
leads**: below its own node, or below the target of its redirect. -/
theorem matchAt_of_topLiteral (hw : tree.WellFormed) (h : tree.TopLiteral name id)
    (hu : tree.canUse id context = .ok true) (hname : IsToken name) (hs : EndsToken s)
    (hnext : (Cursor.atStart s).nextPart? = some next) :
    tree.matchAt context (.atStart (name ++ s)) =
      tree.matchFrom context (tree.onward id) (some (tree.onward id)) (next.behind name.toList)
        ((Trail.start context (.atStart s)).behind name.toList (.point 0)) := by
  obtain ⟨node, hn, husable⟩ := canUse_eq_ok.1 hu
  obtain ⟨owner, ho, hroot⟩ := hw.exists_root
  have hreadable : (Cursor.atStart (name ++ s)).rest ≠ [] := by
    intro hnil
    have htoken := hname.token_eq hs
    rw [Cursor.token, hnil, List.takeWhile_nil] at htoken
    exact hname.1 (String.toList_eq_nil_iff.1 htoken.symm)
  have hchildren := h.relevantChildren_eq hw ho (hname.token_eq hs)
  have hbehind : ((Cursor.atStart (name ++ s)).skipBytes (byteLength name.toList)).nextPart? =
      some (next.behind name.toList) := by
    rw [Cursor.skipBytes_name, Cursor.nextPart?_behind, hnext, Option.map_some]
  obtain ⟨ending, hsymbol⟩ := exists_symbol_of_kind h.2 hn
  rw [matchAt]
  cases hr : node.redirect? with
  | some target =>
    rw [matchFrom, node_eq_ok.2 ho]
    simp only [dif_pos hreadable, hchildren]
    rw [matchAny_cons_of_redirect (step_literal hn hsymbol husable hbehind) hr,
      onward_of_redirect? ((redirect?_of_node? hn).trans hr), Cursor.skipBytes_name,
      addLiteral_start]
  | none =>
    rw [matchFrom_of_literal ho hchildren hreadable hn hsymbol husable hr hbehind,
      onward_of_redirect?_none ((redirect?_of_node? hn).trans hr), Cursor.skipBytes_name,
      addLiteral_start, hroot]
    rcases tree.matchFrom context id (some id) (next.behind name.toList)
        ((Trail.start context (.atStart s)).behind name.toList (.point 0)) with _ | _ | _ <;> rfl

end Tree

namespace Dispatcher

variable {d : Dispatcher κ} {context : Context} {s : String}

/-- With more text in front of the line, a match runs the same command. -/
theorem commandOf?_behind (d : Dispatcher κ) (front : List Char) (reach : Span) (m : Match) :
    d.commandOf? (m.behind front reach) =
      (d.commandOf? m).map (Prod.map id (Bindings.behind front)) := by
  rw [commandOf?_eq, commandOf?_eq, show (m.behind front reach).isComplete = m.isComplete from rfl,
    show (m.behind front reach).node = m.node from rfl]
  cases m.isComplete with
  | false => rfl
  | true => cases (d.tree.node? m.node).bind Node.command? <;> rfl

/-- What stands behind the name of a literal below the root is found with the name in front. -/
theorem parse_of_topLiteral {name : String} {id : NodeId} {next : Cursor} (h : d.Reachable)
    (hlocal : d.tree.ReadsLocally) (hname : d.tree.TopLiteral name id)
    (hu : d.tree.canUse id context = .ok true) (ht : IsToken name) (hs : EndsToken s)
    (hnext : (Cursor.atStart s).nextPart? = some next) :
    d.parse context (name ++ s) = Tree.foundBehind name.toList (.point 0)
      (d.tree.matchFrom context (d.tree.onward id) (some (d.tree.onward id)) next
        (.start context (.atStart s))) := by
  rw [parse, Tree.matchAt_of_topLiteral h.tree.wellFormed hname hu ht hs hnext,
    Tree.matchFrom_behind hlocal]

/-- The command of what was found with more text in front. -/
theorem command?_of_parse_behind {line : String} {front : List Char} {reach : Span}
    {found : Except Failure (Option Match)}
    (h : d.parse context line = Tree.foundBehind front reach found) :
    d.command? context line =
      (match found with | .ok (some m) => d.commandOf? m | _ => none).map
        (Prod.map id (Bindings.behind front)) := by
  rw [command?_eq, h]
  rcases found with failure | _ | m
  · rfl
  · rfl
  · exact commandOf?_behind d front reach m

/-- **An alias is transparent.** Let a literal below the root lead to another one by its redirect,
which has none itself, and let both be usable in the context. Behind either name, the same text that
ends the name as a token is read in the same way: there is one outcome, failure or match, that both
lines have, with every offset moved by the bytes of the name at hand, and one command with bindings,
or none, that both run. The argument types must not look at what stands before their place. -/
theorem exists_found_of_alias {nick name : String} {a target : NodeId} (h : d.Reachable)
    (hlocal : d.tree.ReadsLocally) (hnick : d.tree.TopLiteral nick a)
    (hname : d.tree.TopLiteral name target) (hredirect : d.tree.redirect? a = some target)
    (hnone : d.tree.redirect? target = none) (hua : d.tree.canUse a context = .ok true)
    (hut : d.tree.canUse target context = .ok true) (hnick' : IsToken nick)
    (hname' : IsToken name) (hs : EndsToken s) :
    ∃ (found : Except Failure (Option Match)) (command? : Option (κ × Bindings)),
      d.parse context (nick ++ s) = Tree.foundBehind nick.toList (.point 0) found ∧
      d.parse context (name ++ s) = Tree.foundBehind name.toList (.point 0) found ∧
      d.command? context (nick ++ s) =
        command?.map (Prod.map id (Bindings.behind nick.toList)) ∧
      d.command? context (name ++ s) =
        command?.map (Prod.map id (Bindings.behind name.toList)) ∧
      ∀ command bindings, command? = some (command, bindings) →
        ∀ {σ : Type} (run : κ → Bindings → Action σ Unit),
          d.execute run context (nick ++ s) = run command (bindings.behind nick.toList) ∧
          d.execute run context (name ++ s) = run command (bindings.behind name.toList) := by
  obtain ⟨next, hnext⟩ := hs.exists_nextPart?
  -- both lines come to be matched below the target
  have hpa := parse_of_topLiteral h hlocal hnick hua hnick' hs hnext
  have hpn := parse_of_topLiteral h hlocal hname hut hname' hs hnext
  rw [Tree.onward_of_redirect? hredirect] at hpa
  rw [Tree.onward_of_redirect?_none hnone] at hpn
  have hca := command?_of_parse_behind hpa
  have hcn := command?_of_parse_behind hpn
  refine ⟨_, _, hpa, hpn, hca, hcn, ?_⟩
  intro command bindings hc σ run
  rw [hc] at hca hcn
  exact ⟨execute_of_command? hca run, execute_of_command? hcn run⟩

/-- A literal with a word below it that runs a command and takes a flag, and an alias of the literal
that takes more bytes than characters. -/
def levelWithAlias : Except Violation (Dispatcher Unit) := do
  let level ← (argument ⟨⟨"level", 0⟩, .text .word⟩).executes ()
  let level ← level.child ⟨.flag 'v', none, []⟩
  let set ← (literal "set").child level.toSpec
  let (d, id) ← ({} : Dispatcher Unit).register set
  let größe ← (literal "größe").redirects id
  let (d, _) ← d.register größe
  return d

theorem reachable_of_levelWithAlias {d : Dispatcher Unit} (h : levelWithAlias = .ok d) :
    d.Reachable := by
  obtain ⟨word, hword, h⟩ := exists_of_bind_eq_ok h
  obtain ⟨level, hlevel, h⟩ := exists_of_bind_eq_ok h
  obtain ⟨set, hset, h⟩ := exists_of_bind_eq_ok h
  obtain ⟨⟨d₁, id⟩, h₁, h⟩ := exists_of_bind_eq_ok h
  obtain ⟨größe, hgröße, h⟩ := exists_of_bind_eq_ok h
  obtain ⟨⟨d₂, _⟩, h₂, h⟩ := exists_of_bind_eq_ok h
  cases h
  have hword := (CommandDraft.Drafted.argument _).executes hword
  have hlevel := hword.child (Spec.drafted_of_no_children _ none) hlevel
  have hset := (CommandDraft.Drafted.literal "set").child (.command hlevel) hset
  have hgröße := (CommandDraft.Drafted.literal "größe").redirects hgröße
  exact ((Reachable.start {}).register hset h₁).register hgröße h₂

/-- The names are of different lengths, and what the literal runs its alias runs as well. -/
theorem exists_found_of_alias_levelWithAlias :
    ∃ d : Dispatcher Unit, levelWithAlias = .ok d ∧ d.Reachable ∧ d.tree.ReadsLocally ∧
      d.tree.TopLiteral "größe" 4 ∧ d.tree.TopLiteral "set" 1 ∧
      d.tree.redirect? 4 = some 1 ∧ d.tree.redirect? 1 = none ∧
      d.tree.canUse 4 .empty = .ok true ∧ d.tree.canUse 1 .empty = .ok true ∧
      ∃ (found : Except Failure (Option Match)) (bindings : Bindings),
        d.parse .empty ("größe" ++ " low -v") =
          Tree.foundBehind "größe".toList (.point 0) found ∧
        d.parse .empty ("set" ++ " low -v") = Tree.foundBehind "set".toList (.point 0) found ∧
        (∀ {σ : Type} (run : Unit → Bindings → Action σ Unit),
          d.execute run .empty ("größe" ++ " low -v") = run () (bindings.behind "größe".toList) ∧
          d.execute run .empty ("set" ++ " low -v") = run () (bindings.behind "set".toList)) ∧
        ∀ argument, (bindings.behind "größe".toList).find? argument =
          (bindings.behind "set".toList).find? argument := by
  have htree : levelWithAlias.map (fun d => decide (d.tree.isBuiltIn = true ∧
      d.tree.redirect? 4 = some 1 ∧ d.tree.redirect? 1 = none ∧
      d.tree.canUse 4 .empty = .ok true ∧ d.tree.canUse 1 .empty = .ok true)) = .ok true := by
    decide +kernel
  have hroot : levelWithAlias.map (fun d => (d.tree.node? Tree.root).map fun node =>
      (node.children.literals.find? "größe", node.children.literals.find? "set")) =
        .ok (some (some 4, some 1)) := by
    decide +kernel
  have hrun : levelWithAlias.map (fun d =>
      (d.command? .empty ("set" ++ " low -v")).map Prod.fst) = .ok (some ()) := by
    cbv
  obtain ⟨d, h, hd⟩ := exists_of_map_eq_ok htree
  obtain ⟨hbuiltIn, hredirect, hnone, hua, hut⟩ := of_decide_eq_true hd
  rw [h] at hroot hrun
  obtain ⟨node, hn, hnames⟩ := Option.map_eq_some_iff.1 (Except.ok.inj hroot)
  obtain ⟨hnick, hname⟩ := Prod.mk.inj hnames
  have hreach := reachable_of_levelWithAlias h
  have hlocal := Tree.readsLocally_of_isBuiltIn hbuiltIn
  have hnick := (Tree.topLiteral_iff hreach.tree.wellFormed).2 ⟨node, hn, hnick⟩
  have hname := (Tree.topLiteral_iff hreach.tree.wellFormed).2 ⟨node, hn, hname⟩
  obtain ⟨found, command?, hpa, hpn, -, hcn, hruns⟩ :=
    exists_found_of_alias (s := " low -v") hreach hlocal hnick hname hredirect hnone hua hut
      (by decide) (by decide) (by simp [EndsToken, separator])
  obtain ⟨_, hc, -⟩ := Option.map_eq_some_iff.1 (Except.ok.inj hrun)
  rw [hcn] at hc
  obtain ⟨⟨_, bindings⟩, rfl, -⟩ := Option.map_eq_some_iff.1 hc
  exact ⟨d, h, hreach, hlocal, hnick, hname, hredirect, hnone, hua, hut, found, bindings, hpa, hpn,
    hruns () bindings rfl, fun argument => by simp⟩

end Dispatcher

end CommandGrammar
