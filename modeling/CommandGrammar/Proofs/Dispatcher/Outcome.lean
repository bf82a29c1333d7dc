import CommandGrammar.Proofs.Dispatcher.Alias
import CommandGrammar.Proofs.Grammar.Union

/-!
# What becomes of a line

There are six things that can become of a line (`Dispatcher.Outcome`). It cannot be read; nothing in
it matches; text is left over, behind a literal or with no literal before it; it ends where there is
no command; or it runs the command where it ends, with what was read.

Main statement: executing a line does exactly one of them, whatever the commands do
(`Dispatcher.outcome_iff_execute_eq`), and runs one command at most. The grammar must be built
through a dispatcher, and its redirects must lead to literals or arguments.

That a line which is used up always ends at a literal or an argument is where the grammar comes in:
there are no flags directly below the root (`Dispatcher.Reachable.piecesBelowRoot`), so a line of
flags has no match, and any other one ends where its last literal or argument leads.
-/

namespace CommandGrammar

variable {κ : Type}

/-! ### Directly below the root -/

namespace Tree

variable {tree tree' : Tree κ} {id : NodeId} {spec : Spec κ}

/-- Directly below the root there are literals and arguments only. -/
def PiecesBelowRoot (tree : Tree κ) : Prop :=
  ∀ id, tree.IsChild root id → tree.isTarget id = true

/-- A literal or an argument that is added is one, or has been merged with one. -/
theorem PiecesBelowRoot.isTarget_of_add (h : tree.PiecesBelowRoot) (hw : tree.WellFormed)
    (hpiece : spec.symbol.isFlag = false) (ha : tree.add root spec = .ok (tree', id)) :
    tree'.isTarget id = true := by
  obtain ⟨owner, ho, ⟨hid, -⟩ | ⟨-, rfl, attached, hm, hall⟩⟩ := add_eq_ok ha
  · exact isTarget_mono_of_changes (changes_of_add ha) (h id (hw.isChild_of_byName ho hid).1)
  · obtain ⟨-, -, rfl⟩ := attach_eq_ok hm
    refine isTarget_mono_of_changes (changes_of_addAll hall) ?_
    rw [isTarget_eq_hasKind, hasKind, kind?_insert (lt_size_of_node? ho), if_pos rfl,
      Option.any_some, Symbol.isFlag_kind, hpiece]
    rfl

/-- Adding a literal or an argument below the root puts no flag there. -/
theorem PiecesBelowRoot.add (h : tree.PiecesBelowRoot) (hw : tree.WellFormed)
    (hw' : tree'.WellFormed) (hpiece : spec.symbol.isFlag = false)
    (ha : tree.add root spec = .ok (tree', id)) : tree'.PiecesBelowRoot := by
  have hunion := hw.union_of_add ha
  intro other hc
  obtain ⟨name, hname⟩ := hw'.exists_child?_of_isChild hc
  have hother : tree'.Leads root [name] other := leads_singleton_iff.2 hname
  rcases (hunion.resolves [name]).1 ⟨other, hother⟩ with ⟨old, hold⟩ | hmem
  · obtain rfl := (hunion.stays _ _ _ hold).id_eq hother
    obtain ⟨owner, ho, hid⟩ := child?_eq_ok_some_iff.1 (leads_singleton_iff.1 hold)
    exact isTarget_mono_of_changes (changes_of_add ha) (h old (hw.isChild_of_byName ho hid).1)
  · obtain rfl := Spec.eq_name_of_mem_paths hmem
    obtain rfl := hother.id_eq (leads_singleton_iff.2 hunion.child)
    exact h.isTarget_of_add hw hpiece ha

/-- Nor does taking a child away. -/
theorem PiecesBelowRoot.remove (h : tree.PiecesBelowRoot) {name : String} {id? : Option NodeId}
    (hr : tree.remove root name = .ok (tree', id?)) : tree'.PiecesBelowRoot := by
  obtain ⟨owner, ho, hid, ⟨-, rfl⟩ | ⟨id, rfl, rfl⟩⟩ := remove_eq_ok hr
  · exact h
  · rintro other ⟨node, hn, hm⟩
    refine (Change.erase ho hid).isTarget_mono (h other ?_)
    obtain ⟨-, old, hold, rfl⟩ | ⟨-, hold⟩ := node?_modify_eq_some hn
    · exact ⟨old, hold, List.mem_of_mem_filter hm⟩
    · exact ⟨node, hold, hm⟩

end Tree

/-! ### How far the literals reach -/

theorem Visit.eq_of_literalStop? {v : Visit} {stop : Nat} (h : v.literalStop? = some stop) :
    stop = v.stop.index := by
  unfold literalStop? at h
  split at h
  · exact (Option.some.inj h).symm
  · cases h

/-- Some literal among the visits ends behind a place. -/
def PassesLiteral (c : Cursor) (visits : List Visit) : Prop :=
  ∃ v ∈ visits, ∃ stop, v.literalStop? = some stop ∧ c.index < stop

namespace Tree

variable {tree : Tree κ} {context : Context} {id : NodeId} {c e : Cursor} {m : Match}
  {visits : List Visit}

theorem Path.index_le_of_literalStop (h : tree.Path context id c visits e) :
    ∀ stop ∈ visits.filterMap Visit.literalStop?, c.index ≤ stop := by
  induction h with
  | nil => simp
  | @cons id v visits next e hc hv hg hpath ih =>
    intro stop hstop
    have hvisit := hv.advances.index_le
    rw [List.mem_filterMap] at hstop
    obtain ⟨w, hw, hstop⟩ := hstop
    rcases List.mem_cons.1 hw with rfl | hw
    · exact Visit.eq_of_literalStop? hstop ▸ hvisit
    · have hnext := ih stop (List.mem_filterMap.2 ⟨w, hw, hstop⟩)
      exact Nat.le_trans hvisit (Nat.le_trans hg.advances.index_le hnext)

/-- Literals end one behind the other. -/
theorem Path.pairwise_literalStop (h : tree.Path context id c visits e) :
    (visits.filterMap Visit.literalStop?).Pairwise (· ≤ ·) := by
  induction h with
  | nil => exact .nil
  | @cons id v visits next e hc hv hg hpath ih =>
    cases hl : v.literalStop? with
    | none =>
      rw [List.filterMap_cons_none hl]
      exact ih
    | some stop =>
      rw [List.filterMap_cons_some hl]
      refine List.pairwise_cons.2 ⟨fun later hlater => ?_, ih⟩
      rw [Visit.eq_of_literalStop? hl]
      exact Nat.le_trans hg.advances.index_le (hpath.index_le_of_literalStop later hlater)

/-- **A match has literals in its trail exactly if one of them ends behind the beginning.** -/
theorem Explains.isEmpty_literals_iff (h : tree.Explains context c visits m) :
    m.trail.literals.isEmpty = true ↔ ¬ PassesLiteral c visits := by
  rw [h.literals, Span.isEmpty, decide_eq_true_iff]
  simp only
  constructor
  · rintro hle ⟨v, hv, stop, hstop, hlt⟩
    have hmem := List.mem_filterMap.2 ⟨v, hv, hstop⟩
    obtain ⟨init, last, hl⟩ :=
      (List.eq_nil_or_concat' _).resolve_left (List.ne_nil_of_mem hmem)
    have hsorted := h.path.pairwise_literalStop
    rw [hl] at hle hmem hsorted
    rw [List.getLast?_concat, Option.getD_some] at hle
    have hstop : stop ≤ last := by
      rcases List.mem_append.1 hmem with hm | hm
      · exact (List.pairwise_append.1 hsorted).2.2 stop hm last (List.mem_singleton_self last)
      · exact Nat.le_of_eq (List.mem_singleton.1 hm)
    exact Nat.not_lt.2 (Nat.le_trans hstop hle) hlt
  · intro hnone
    cases hl : (visits.filterMap Visit.literalStop?).getLast? with
    | none => exact Nat.le_refl _
    | some last =>
      obtain ⟨v, hv, hstop⟩ := List.mem_filterMap.1 (List.mem_of_getLast? hl)
      by_contra hlt
      exact hnone ⟨v, hv, last, hstop, Nat.not_le.1 hlt⟩

/-! ### Where a line ends that is used up -/

theorem Visits.isTarget_eq {v : Visit} (h : tree.Visits context v) :
    tree.isTarget v.id = !v.isFlag := by
  rw [isTarget_eq_hasKind, hasKind, h.kind, Option.any_some, Visit.isFlag]

/-- The visits from the root on begin with a literal or an argument. -/
theorem PiecesBelowRoot.exists_piece (h : tree.PiecesBelowRoot)
    (hp : tree.Path context root c visits e) (hne : visits ≠ []) :
    ∃ v ∈ visits, v.isFlag = false := by
  cases hp with
  | nil => exact absurd rfl hne
  | @cons id v visits next e hc hv hg hpath =>
    refine ⟨v, List.mem_cons_self, ?_⟩
    simpa [hv.isTarget_eq] using h v.id hc

theorem RedirectsLead.isTarget_onward (h : tree.RedirectsLead) (ht : tree.isTarget id = true) :
    tree.isTarget (tree.onward id) = true := by
  cases hr : tree.redirect? id with
  | none => rwa [onward_of_redirect?_none hr]
  | some target =>
    rw [onward_of_redirect? hr]
    exact h id target hr

end Tree

namespace Dispatcher

variable {d : Dispatcher κ} {context : Context} {line : String} {m : Match} {visits : List Visit}

/-- **A dispatcher has literals and arguments only directly below the root.** -/
theorem Reachable.piecesBelowRoot (h : d.Reachable) : d.tree.PiecesBelowRoot := by
  induction h with
  | start _ =>
    rintro id ⟨node, hn, hm⟩
    obtain rfl := Option.some.inj hn
    cases hm
  | register hd hdraft hr ih =>
    have hw' := (hd.register hdraft hr).tree.wellFormed
    obtain ⟨⟨tree, id⟩, ha, h⟩ := exists_of_bind_eq_ok hr
    cases h
    exact ih.add hd.tree.wellFormed hw' rfl ha
  | remove _ hr ih =>
    obtain ⟨⟨tree, id?⟩, hr, h⟩ := exists_of_bind_eq_ok hr
    cases h
    exact ih.remove hr
  | restyle _ _ ih => exact ih

/-- **A line that is used up ends at a literal or an argument.** -/
theorem isTarget_of_isComplete (h : d.Reachable) (hlead : d.tree.RedirectsLead)
    (hp : d.parse context line = .ok (some m)) (hm : m.isComplete = true) :
    d.tree.isTarget m.node = true := by
  obtain ⟨visits, hx⟩ := Tree.exists_explains h.tree.wellFormed hp
  obtain ⟨front, v, back, hlast⟩ := exists_lastPiece_of_visit hp hm hx
    (h.piecesBelowRoot.exists_piece hx.path hx.nonempty)
  rw [hlast.node_eq]
  refine hlead.isTarget_onward ?_
  rw [hlast.visits.isTarget_eq, hlast.piece]
  rfl

/-- If nothing is selected, then something is wrong with the line. -/
theorem exists_parse_of_select_error {failure : Failure} (h : d.Reachable)
    (hlead : d.tree.RedirectsLead) (hs : d.select context line = .error failure) :
    ∃ e, failure = .parse e := by
  have hw := h.tree.wellFormed
  unfold select at hs
  rcases hp : d.parse context line with parseFailure | _ | m
  · simp only [hp, Except.error.injEq] at hs
    exact hs ▸ Tree.exists_parse_of_matchFrom hw hlead.stay hw.root hp
  · simp only [hp, Except.error.injEq] at hs
    exact ⟨_, hs.symm⟩
  · simp only [hp] at hs
    cases hm : m.isComplete with
    | false =>
      simp only [selectMatch_of_not_isComplete hm, Except.error.injEq] at hs
      exact ⟨_, hs.symm⟩
    | true =>
      rw [selectMatch_of_isTarget hm (isTarget_of_isComplete h hlead hp hm)] at hs
      cases hs

/-! ### The outcomes -/

/-- What becomes of a line: what executing it does, and the commands that are run, with their
bindings. -/
inductive Outcome {σ : Type} (d : Dispatcher κ) (run : κ → Bindings → Action σ Unit)
    (context : Context) (line : String) : Action σ Unit → List (κ × Bindings) → Prop where
  /-- The line cannot be read, and that is the failure. -/
  | unreadable {e : ParseError} : d.parse context line = .error (.parse e) →
      Outcome d run context line (throw (.parse e)) []
  /-- Nothing matches. There is no such command, at the beginning of the line. -/
  | unmatched : d.parse context line = .ok none →
      Outcome d run context line (throw (.parse ⟨.unknownCommand, .atStart line⟩)) []
  /-- Text is left over, and no literal ends behind the beginning of the line. There is no such
  command, at that text. -/
  | unknownCommand {m : Match} {visits : List Visit} : d.parse context line = .ok (some m) →
      m.isComplete = false → d.tree.Explains context (.atStart line) visits m →
      ¬ PassesLiteral (.atStart line) visits →
      Outcome d run context line (throw (.parse ⟨.unknownCommand, m.cursor⟩)) []
  /-- Text is left over behind a literal. There is no such argument, at that text. -/
  | unknownArgument {m : Match} {visits : List Visit} : d.parse context line = .ok (some m) →
      m.isComplete = false → d.tree.Explains context (.atStart line) visits m →
      PassesLiteral (.atStart line) visits →
      Outcome d run context line (throw (.parse ⟨.unknownArgument, m.cursor⟩)) []
  /-- The line ends where there is no command, which is fine. -/
  | idle {m : Match} {node : Node κ} : d.parse context line = .ok (some m) →
      m.isComplete = true → d.tree.node? m.node = some node → node.command? = none →
      Outcome d run context line (pure ()) []
  /-- The line ends at a command, which is run with what was read. -/
  | command {m : Match} {node : Node κ} {command : κ} : d.parse context line = .ok (some m) →
      m.isComplete = true → d.tree.node? m.node = some node → node.command? = some command →
      Outcome d run context line (run command m.trail.toBindings) [(command, m.trail.toBindings)]

/-- The commands that executing a line runs, one after the other, with their bindings. -/
def calls (d : Dispatcher κ) (context : Context) (line : String) : List (κ × Bindings) :=
  let run : κ → Bindings → Action (List (κ × Bindings)) Unit := fun command bindings =>
    modify (· ++ [(command, bindings)])
  ((d.execute run context line).run.run []).2

theorem calls_eq (d : Dispatcher κ) (context : Context) (line : String) :
    d.calls context line = (d.command? context line).toList := by
  unfold calls execute command?
  rcases d.select context line with failure | _ | ⟨command, bindings⟩ <;> rfl

section Outcome

variable {σ : Type} {run : κ → Bindings → Action σ Unit} {action : Action σ Unit}
  {made : List (κ × Bindings)}

theorem execute_of_select_error {failure : Failure} (hs : d.select context line = .error failure) :
    throw failure = d.execute run context line ∧ [] = d.calls context line := by
  rw [calls_eq, command?, execute, hs]
  exact ⟨rfl, rfl⟩

theorem execute_of_select_none (hs : d.select context line = .ok none) :
    pure () = d.execute run context line ∧ [] = d.calls context line := by
  rw [calls_eq, command?, execute, hs]
  exact ⟨rfl, rfl⟩

theorem execute_of_select_some {command : κ} {bindings : Bindings}
    (hs : d.select context line = .ok (some (command, bindings))) :
    run command bindings = d.execute run context line ∧
      [(command, bindings)] = d.calls context line := by
  rw [calls_eq, command?, execute, hs]
  exact ⟨rfl, rfl⟩

/-- There is no other outcome than that of executing the line. -/
theorem Outcome.eq (h : d.Reachable) (hlead : d.tree.RedirectsLead)
    (ho : d.Outcome run context line action made) :
    action = d.execute run context line ∧ made = d.calls context line := by
  cases ho with
  | unreadable hp =>
    refine execute_of_select_error ?_
    simp only [select, hp]
  | unmatched hp =>
    refine execute_of_select_error ?_
    simp only [select, hp]
  | @unknownCommand m visits hp hm hx hliteral =>
    have hempty := hx.isEmpty_literals_iff.2 hliteral
    refine execute_of_select_error ?_
    simp only [select, hp, selectMatch_of_not_isComplete hm, hempty, ↓reduceIte]
  | @unknownArgument m visits hp hm hx hliteral =>
    have hempty : m.trail.literals.isEmpty = false := by
      rw [← Bool.not_eq_true, hx.isEmpty_literals_iff, not_not]
      exact hliteral
    refine execute_of_select_error ?_
    simp only [select, hp, selectMatch_of_not_isComplete hm, hempty, Bool.false_eq_true,
      ↓reduceIte]
  | @idle m node hp hm hn hc =>
    have ht := isTarget_of_isComplete h hlead hp hm
    refine execute_of_select_none ?_
    simp only [select, hp, selectMatch_of_isTarget hm ht, commandAt, hn, Option.bind_some, hc,
      Option.map_none]
  | @command m node command hp hm hn hc =>
    have ht := isTarget_of_isComplete h hlead hp hm
    refine execute_of_select_some ?_
    simp only [select, hp, selectMatch_of_isTarget hm ht, commandAt, hn, Option.bind_some, hc,
      Option.map_some]

/-- Every line has an outcome. -/
theorem exists_outcome (h : d.Reachable) (hlead : d.tree.RedirectsLead)
    (run : κ → Bindings → Action σ Unit) (context : Context) (line : String) :
    ∃ action made, d.Outcome run context line action made := by
  have hw := h.tree.wellFormed
  rcases hp : d.parse context line with failure | _ | m
  · obtain ⟨e, rfl⟩ := Tree.exists_parse_of_matchFrom hw hlead.stay hw.root hp
    exact ⟨_, _, .unreadable hp⟩
  · exact ⟨_, _, .unmatched hp⟩
  · cases hm : m.isComplete with
    | false =>
      obtain ⟨visits, hx⟩ := Tree.exists_explains h.tree.wellFormed hp
      by_cases hliteral : PassesLiteral (.atStart line) visits
      · exact ⟨_, _, .unknownArgument hp hm hx hliteral⟩
      · exact ⟨_, _, .unknownCommand hp hm hx hliteral⟩
    | true =>
      obtain ⟨node, hn, -⟩ :=
        (Option.any_eq_true _ _).1 (isTarget_of_isComplete h hlead hp hm)
      cases hc : node.command? with
      | none => exact ⟨_, _, .idle hp hm hn hc⟩
      | some command => exact ⟨_, _, .command hp hm hn hc⟩

end Outcome

/-- **What executing a line does, exactly.** It runs one command at most: the one at which the match
of the line uses it up, with what was read. It does what that command does; and of the other
outcomes, in which no command is run, it has the one that fits the match. The redirects of the
grammar must lead to literals or arguments. -/
theorem outcome_iff_execute_eq (h : d.Reachable) (hlead : d.tree.RedirectsLead) (context : Context)
    (line : String) :
    (d.calls context line).length ≤ 1 ∧
    (∀ command bindings, (command, bindings) ∈ d.calls context line ↔
      ∃ m node, d.parse context line = .ok (some m) ∧ m.isComplete = true ∧
        d.tree.node? m.node = some node ∧ node.command? = some command ∧
        bindings = m.trail.toBindings) ∧
    ∀ {σ : Type} (run : κ → Bindings → Action σ Unit) action made,
      d.Outcome run context line action made ↔
        action = d.execute run context line ∧ made = d.calls context line := by
  refine ⟨?_, fun command bindings => ?_, fun run action made => ⟨fun ho => ho.eq h hlead, ?_⟩⟩
  · rw [calls_eq]
    cases d.command? context line with
    | none => exact Nat.zero_le 1
    | some call => exact Nat.le_refl 1
  · rw [calls_eq, Option.mem_toList, command?_eq_some_iff]
    constructor
    · rintro ⟨id, m, hp, rfl, hs⟩
      obtain ⟨hm, hb, node, hn, hc⟩ := selectMatch_eq_ok_some_iff.1 hs
      exact ⟨m, node, hp, hm, hn, hc, hb⟩
    · rintro ⟨m, node, hp, hm, hn, hc, rfl⟩
      exact ⟨m.node, runsAt_of_parse hp hm hn hc⟩
  · rintro ⟨rfl, rfl⟩
    obtain ⟨action, made, ho⟩ := exists_outcome h hlead run context line
    obtain ⟨rfl, rfl⟩ := ho.eq h hlead
    exact ho

/-- A line runs the command of an argument with the flag behind it, and only it; one with too much
text runs nothing. -/
theorem outcome_iff_execute_eq_levelWithAlias :
    ∃ (d : Dispatcher Unit) (bindings : Bindings), levelWithAlias = .ok d ∧ d.Reachable ∧
      d.tree.RedirectsLead ∧ d.calls .empty "set low -v" = [((), bindings)] ∧
      (∀ {σ : Type} (run : Unit → Bindings → Action σ Unit),
        d.execute run .empty "set low -v" = run () bindings) ∧
      d.calls .empty "set low high" = [] ∧
      ∀ {σ : Type} (run : Unit → Bindings → Action σ Unit),
        d.Outcome run .empty "set low high" (d.execute run .empty "set low high") [] := by
  have hlead : levelWithAlias.map (fun d => decide d.tree.RedirectsLead) = .ok true := by
    decide +kernel
  have hrun : levelWithAlias.map (fun d =>
      (d.command? .empty "set low -v").map Prod.fst) = .ok (some ()) := by
    cbv
  have hidle : levelWithAlias.map (fun d =>
      (d.command? .empty "set low high").isNone) = .ok true := by
    cbv
  obtain ⟨d, h, hd⟩ := exists_of_map_eq_ok hlead
  have hlead := of_decide_eq_true hd
  have hreach := reachable_of_levelWithAlias h
  rw [h] at hrun hidle
  obtain ⟨⟨_, bindings⟩, hsome, -⟩ := Option.map_eq_some_iff.1 (Except.ok.inj hrun)
  have hcall : d.calls .empty "set low -v" = [((), bindings)] := by
    rw [calls_eq, hsome]
    rfl
  have hnone : d.calls .empty "set low high" = [] := by
    rw [calls_eq, Option.isNone_iff_eq_none.1 (Except.ok.inj hidle)]
    rfl
  obtain ⟨-, hmem, hiff⟩ := outcome_iff_execute_eq hreach hlead .empty "set low -v"
  obtain ⟨m, node, hp, hm, hn, hc, rfl⟩ := (hmem () bindings).1 (hcall ▸ List.mem_cons_self)
  refine ⟨d, m.trail.toBindings, h, hreach, hlead, hcall, ?_, hnone, ?_⟩
  · intro σ run
    exact ((hiff run _ _).1 (.command hp hm hn hc)).1.symm
  · intro σ run
    exact ((outcome_iff_execute_eq hreach hlead .empty "set low high").2.2 run _ _).2
      ⟨rfl, hnone.symm⟩

end Dispatcher

end CommandGrammar
