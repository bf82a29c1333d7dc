import CommandGrammar.Proofs.Dispatcher.Plain

/-!
# The order of registrations

Commands may be registered in any order. For drafts of plain literals the order makes no difference:
which names there are is a matter of which lineages the specs have, and so is whether a rule is
broken, since the one rule that plain literals can break is that two of them with the same names have
a command (`Spec.CommandsDistinct`).

Main statement: `Dispatcher.sameLines_of_perm`. Registering drafts in one order or another breaks the
same rule or none, and then every line is matched alike and runs the same command.
-/

namespace CommandGrammar

variable {κ : Type}

/-! ### Two commands at the same names -/

namespace Spec

variable {done others : List (List (Spec κ))} {spec : Spec κ} {above : List (Spec κ)}

/-- No two specs with the same names have a command. -/
def CommandsDistinct (done : List (List (Spec κ))) : Prop :=
  ∀ names, (done.filterMap (commandAt names)).length ≤ 1

theorem CommandsDistinct.of_append (h : CommandsDistinct (done ++ others)) :
    CommandsDistinct done := by
  intro names
  have hall := h names
  rw [List.filterMap_append, List.length_append] at hall
  exact Nat.le_of_add_right_le hall

theorem CommandsDistinct.perm (h : CommandsDistinct done) (hperm : done.Perm others) :
    CommandsDistinct others := by
  intro names
  rw [(hperm.symm.filterMap (commandAt names)).length_eq]
  exact h names

/-- A second command at names where there is one. -/
theorem not_commandsDistinct_of_commands
    (h : (done.filterMap (commandAt (path (spec :: above)))).length = 1)
    (hc : spec.command?.isSome = true) : ¬ CommandsDistinct (done ++ [spec :: above]) := by
  intro hdistinct
  obtain ⟨command, hc⟩ := Option.isSome_iff_exists.1 hc
  have hall := hdistinct (path (spec :: above))
  rw [filterMap_commandAt_append, if_pos rfl, hc, List.length_append, h] at hall
  exact absurd hall (by simp)

/-- The order of specs is one of their lineages. -/
theorem lineagesAll_perm {specs others : List (Spec κ)} (hperm : specs.Perm others) :
    (lineagesAll [] specs).Perm (lineagesAll [] others) := by
  rw [lineagesAll_eq_flatMap, lineagesAll_eq_flatMap]
  exact hperm.flatMap_right _

theorem AllPlain.perm (h : AllPlain done) (hperm : done.Perm others) : AllPlain others :=
  fun lineage hl => h lineage (hperm.mem_iff.2 hl)

end Spec

/-- Without a redirect, an ending is absorbed unless both have a command. -/
theorem Ending.absorb_cases (ending : Ending κ) {incoming : Ending κ}
    (hr : incoming.redirect = none) (hasChildren : Bool) :
    (∃ result, ending.absorb hasChildren incoming = .ok result) ∨
      ending.absorb hasChildren incoming = .error .commandReplaced ∧
        ending.command.isSome = true ∧ incoming.command.isSome = true := by
  simp only [absorb, absorbRedirect, hr, absorbCommand]
  cases hi : incoming.command with
  | none => exact .inl ⟨ending, rfl⟩
  | some command =>
    simp only [bindCommand]
    cases hc : ending.command with
    | none => exact .inl ⟨_, rfl⟩
    | some other => exact .inr ⟨rfl, rfl, rfl⟩

namespace Tree

variable {tree now : Tree κ} {parent id : NodeId} {owner node : Node κ} {spec : Spec κ}
  {above : List (Spec κ)} {done others : List (List (Spec κ))} {name : String}
  {names : List String}

/-! ### Which rule is broken -/

namespace Plain

/-- A plain spec becomes a new node wherever its name is new. -/
theorem attach_eq (h : tree.Plain) (hat : tree.At names parent)
    (ho : tree.node? parent = some owner) (hspec : spec.Plain) :
    tree.attach parent owner spec.symbol spec.requirement =
      .ok (tree.insert parent spec.symbol spec.requirement) := by
  refine attach_eq_insert (h.redirect?_eq_none hat ho) fun target ht => ?_
  rw [show spec.symbol.ending?.bind Ending.redirect = none from hspec.redirect] at ht
  cases ht

/-- It is merged unless there are two commands then. -/
theorem absorb_cases (h : tree.Plain) (hat : tree.At (name :: names) id) (hspec : spec.Plain) :
    (∃ merged, tree.absorb id spec.symbol = .ok merged) ∨
      tree.absorb id spec.symbol = .error .commandReplaced ∧ spec.command?.isSome = true ∧
        ∃ node, tree.node? id = some node ∧ node.command?.isSome = true := by
  obtain ⟨node, ending, hn, hs, -⟩ := h.literal name names id hat
  obtain ⟨text, incoming, hincoming, hr⟩ := hspec.exists_symbol
  rw [hincoming, absorb_eq_map hn hs, Symbol.absorb]
  rcases ending.absorb_cases hr (!node.children.order.isEmpty) with
    ⟨result, hresult⟩ | ⟨herror, hc, hc'⟩
  · rw [hresult]
    exact .inl ⟨_, rfl⟩
  · rw [herror]
    refine .inr ⟨rfl, ?_, node, hn, ?_⟩
    · rw [Spec.command?, hincoming]
      exact hc'
    · rw [Node.command?, Node.ending?, hs]
      exact hc

end Plain

/-- What names lead to has a command if one of the lineages there has one. -/
theorem Registered.commandsDistinct (h : tree.Registered done) (hdone : Spec.AllPlain done) :
    Spec.CommandsDistinct done := by
  intro names
  by_cases hnew : ∀ other ∈ done, Spec.path other ≠ names
  · rw [Spec.filterMap_commandAt_of_new hnew]
    exact Nat.zero_le 1
  · simp only [not_forall, not_not] at hnew
    obtain ⟨lineage, hl, rfl⟩ := hnew
    obtain ⟨id, hat⟩ := h.placed lineage hl
    obtain ⟨node, hn⟩ := hat.exists_node? h.wellFormed
    cases hp : Spec.path lineage with
    | nil =>
      -- no spec has no names
      rw [List.filterMap_eq_nil_iff.2]
      · exact Nat.zero_le 1
      · intro other _
        cases other <;> rfl
    | cons name names =>
      rw [hp] at hat
      rw [h.commands name names id node hat hn ((h.plain hdone).isFlag_eq_false hat hn)]
      exact Option.length_toList_le

/-- A second command at names that lead to one. -/
theorem Registered.not_commandsDistinct (h : tree.Registered done) (hplain : tree.Plain)
    (hat : tree.At (Spec.path (spec :: above)) id) (hn : tree.node? id = some node)
    (hc : node.command?.isSome = true) (hc' : spec.command?.isSome = true) :
    ¬ Spec.CommandsDistinct (done ++ [spec :: above]) := by
  refine Spec.not_commandsDistinct_of_commands ?_ hc'
  rw [Spec.path, List.map_cons, h.commands _ _ id node hat hn (hplain.isFlag_eq_false hat hn)]
  obtain ⟨command, hc⟩ := Option.isSome_iff_exists.1 hc
  rw [hc]
  rfl

/-- What is made of a result breaks the same rule as the result. -/
theorem cases_of_map {ε α β : Type} {result : Except ε α} {breach : ε} {broken : Prop} (f : α → β)
    (h : (∃ a, result = .ok a) ∨ result = .error breach ∧ broken) :
    (∃ b, result.map f = .ok b) ∨ result.map f = .error breach ∧ broken := by
  rcases h with ⟨a, rfl⟩ | ⟨rfl, hbroken⟩
  · exact .inl ⟨f a, rfl⟩
  · exact .inr ⟨rfl, hbroken⟩

mutual

/-- **Adding plain specs breaks no rule but that there are two commands at some names.** -/
theorem Registered.add_cases {now : Tree κ} {parent : NodeId} {done : List (List (Spec κ))}
    {above : List (Spec κ)} :
    ∀ {spec : Spec κ}, now.Registered done → Spec.AllPlain done →
      now.At (Spec.path above) parent → (above = [] ∨ above ∈ done) →
      Spec.AllPlain (spec.lineages above) →
      (∃ result, now.add parent spec = .ok result) ∨
        now.add parent spec = .error .commandReplaced ∧
          ¬ Spec.CommandsDistinct (done ++ spec.lineages above)
  | ⟨symbol, requirement, specs⟩, h, hdone, hat, habove, hspec => by
    have hplain := h.plain hdone
    obtain ⟨owner, ho⟩ := hat.exists_node? h.wellFormed
    rw [Spec.lineages] at hspec ⊢
    obtain ⟨hlineage, hbelow⟩ := List.forall_mem_cons.1 hspec
    have hself := hlineage ⟨symbol, requirement, specs⟩ List.mem_cons_self
    have hdone' : Spec.AllPlain (done ++ [⟨symbol, requirement, specs⟩ :: above]) :=
      List.forall_mem_append.2 ⟨hdone, by simpa using hlineage⟩
    rw [List.append_cons]
    cases hid : owner.children.byName.find? symbol.name with
    | some id =>
      have hchild : now.At (Spec.path (⟨symbol, requirement, specs⟩ :: above)) id :=
        .child hat ho hid
      rw [add_of_child ho hid]
      rcases hplain.absorb_cases hchild hself with ⟨merged, hm⟩ | ⟨hm, hc, node, hn, hc'⟩
      · rw [hm]
        exact cases_of_map _ ((h.absorb hchild hm).addAll_cases hdone'
          (hchild.stay (namesStay_of_absorb hm)) (by simp) hbelow)
      · refine .inr ⟨by rw [hm]; rfl, fun hdistinct => ?_⟩
        exact h.not_commandsDistinct hplain hchild hn hc' hc hdistinct.of_append
    | none =>
      have hfresh : owner.children.byName.find?
          (Spec.name ⟨symbol, requirement, specs⟩) = none := hid
      have hattach := hplain.attach_eq hat ho hself
      rw [add_of_new ho hid, hattach]
      exact cases_of_map _ ((h.attach hat ho hfresh hattach).addAll_cases hdone'
        (at_insert_new ho hid hat) (by simp) hbelow)

theorem Registered.addAll_cases {now : Tree κ} {parent : NodeId} {done : List (List (Spec κ))}
    {above : List (Spec κ)} :
    ∀ {specs : List (Spec κ)}, now.Registered done → Spec.AllPlain done →
      now.At (Spec.path above) parent → (above = [] ∨ above ∈ done) →
      Spec.AllPlain (Spec.lineagesAll above specs) →
      (∃ later, now.addAll parent specs = .ok later) ∨
        now.addAll parent specs = .error .commandReplaced ∧
          ¬ Spec.CommandsDistinct (done ++ Spec.lineagesAll above specs)
  | [], _, _, _, _, _ => .inl ⟨now, by rw [Tree.addAll]; rfl⟩
  | spec :: specs, h, hdone, hat, habove, hspecs => by
    rw [Spec.lineagesAll] at hspecs ⊢
    obtain ⟨hspec, hrest⟩ := List.forall_mem_append.1 hspecs
    rw [Tree.addAll, ← List.append_assoc]
    rcases h.add_cases hdone hat habove hspec with ⟨⟨added, id⟩, ha⟩ | ⟨herror, hnot⟩
    · obtain ⟨hadded, hstay, -⟩ :=
        Registered.keptByAdding.add h (at_iff_leads.1 hat) habove ha
      rw [ha]
      exact hadded.addAll_cases (List.forall_mem_append.2 ⟨hdone, hspec⟩) (hat.stay hstay)
        (habove.imp_right fun hm => List.mem_append_left _ hm) hrest
    · refine .inr ⟨by rw [herror]; rfl, fun hdistinct => hnot hdistinct.of_append⟩

end

/-- **Which plain specs can be added to the empty grammar.** -/
theorem addAll_eq_error_iff {specs : List (Spec κ)}
    (hplain : Spec.AllPlain (Spec.lineagesAll [] specs)) {breach : Violation} :
    (Tree.empty : Tree κ).addAll root specs = .error breach ↔
      breach = .commandReplaced ∧ ¬ Spec.CommandsDistinct (Spec.lineagesAll [] specs) := by
  have hempty : (Tree.empty : Tree κ).Registered [] := .empty
  have hcases := hempty.addAll_cases nofun .root (.inl rfl) hplain
  rw [List.nil_append] at hcases
  rcases hcases with ⟨later, hlater⟩ | ⟨herror, hnot⟩
  · have hregistered := hempty.addAll hlater
    rw [List.nil_append] at hregistered
    rw [hlater]
    exact ⟨nofun, fun h => absurd (hregistered.commandsDistinct hplain) h.2⟩
  · rw [herror, Except.error.injEq]
    exact ⟨fun e => ⟨e.symm, hnot⟩, fun h => h.1.symm⟩

/-! ### What does not depend on the order -/

theorem Registered.exists_at_iff (h : tree.Registered done) :
    (∃ id, tree.At (name :: names) id) ↔ ∃ lineage ∈ done, Spec.path lineage = name :: names := by
  constructor
  · rintro ⟨id, hat⟩
    obtain ⟨node, hn⟩ := hat.exists_node? h.wellFormed
    obtain ⟨spec, above, hfirst, -⟩ := h.origin name names id node hat hn
    have hpath := List.find?_some hfirst
    exact ⟨spec :: above, List.mem_of_find?_eq_some hfirst, of_decide_eq_true hpath⟩
  · rintro ⟨lineage, hl, hpath⟩
    obtain ⟨id, hat⟩ := h.placed lineage hl
    exact ⟨id, hpath ▸ hat⟩

variable {tree' : Tree κ} (h : tree.Registered done) (h' : tree'.Registered others)
  (hperm : done.Perm others)

include h h' hperm in
/-- The names do not. -/
theorem sameNames_of_perm : tree.SameNames tree' := by
  intro names
  cases names with
  | nil => exact iff_of_true ⟨root, .root⟩ ⟨root, .root⟩
  | cons name names =>
    rw [h.exists_at_iff, h'.exists_at_iff]
    simp only [hperm.mem_iff]

include h h' hperm in
/-- The commands do not. -/
theorem command?_eq_of_perm {id' : NodeId} {node' : Node κ} (hplain : tree.Plain)
    (hplain' : tree'.Plain) (hat : tree.At (name :: names) id)
    (hat' : tree'.At (name :: names) id') (hn : tree.node? id = some node)
    (hn' : tree'.node? id' = some node') : node'.command? = node.command? := by
  have hcommands := hperm.filterMap (Spec.commandAt (name :: names))
  rw [h.commands name names id node hat hn (hplain.isFlag_eq_false hat hn),
    h'.commands name names id' node' hat' hn' (hplain'.isFlag_eq_false hat' hn')] at hcommands
  cases hc : node.command? with
  | none =>
    rw [hc, Option.toList_none, List.nil_perm, Option.toList_eq_nil_iff] at hcommands
    exact hcommands
  | some command =>
    rw [hc, Option.toList_some, List.singleton_perm, eq_comm, Option.toList_eq_singleton_iff]
      at hcommands
    exact hcommands

end Tree

namespace Dispatcher

/-! ### Registering in another order -/

/-- Registers commands, one after the other. -/
def registerAll (d : Dispatcher κ) : List (CommandDraft κ) → Except Violation (Dispatcher κ)
  | [] => .ok d
  | draft :: drafts => do
    let (d, _) ← d.register draft
    d.registerAll drafts

/-- Their specs are added one after the other. -/
theorem registerAll_eq (d : Dispatcher κ) (drafts : List (CommandDraft κ)) :
    d.registerAll drafts = (d.tree.addAll Tree.root (drafts.map CommandDraft.toSpec)).map
      fun tree => { d with tree } := by
  induction drafts generalizing d with
  | nil =>
    rw [registerAll, List.map_nil, Tree.addAll]
    rfl
  | cons draft drafts ih =>
    rw [registerAll, List.map_cons, Tree.addAll, register]
    cases d.tree.add Tree.root draft.toSpec with
    | error breach => rfl
    | ok result => exact ih { d with tree := result.1 }

/-- The lineages of all specs in some drafts. -/
def lineagesOf (drafts : List (CommandDraft κ)) : List (List (Spec κ)) :=
  Spec.lineagesAll [] (drafts.map CommandDraft.toSpec)

variable {d d' : Dispatcher κ} {drafts others : List (CommandDraft κ)}

theorem registered_of_registerAll (h : registerAll {} drafts = .ok d) :
    d.tree.Registered (lineagesOf drafts) := by
  rw [registerAll_eq] at h
  obtain ⟨tree, ha, rfl⟩ := exists_of_map_eq_ok h
  have hregistered := Tree.Registered.empty.addAll ha
  rw [List.nil_append] at hregistered
  exact hregistered

/-- **Which drafts of plain literals can be registered.** -/
theorem registerAll_eq_error_iff (hplain : Spec.AllPlain (lineagesOf drafts))
    {breach : Violation} :
    registerAll {} drafts = .error breach ↔
      breach = .commandReplaced ∧ ¬ Spec.CommandsDistinct (lineagesOf drafts) := by
  rw [lineagesOf, ← Tree.addAll_eq_error_iff hplain, registerAll_eq]
  cases Tree.addAll (Dispatcher.tree {}) Tree.root (drafts.map CommandDraft.toSpec) <;>
    simp [Except.map]

section Perm

variable (h : registerAll {} drafts = .ok d) (h' : registerAll {} others = .ok d')
  (hperm : drafts.Perm others) (hplain : Spec.AllPlain (lineagesOf drafts))

include hperm in
theorem lineagesOf_perm : (lineagesOf drafts).Perm (lineagesOf others) :=
  Spec.lineagesAll_perm (hperm.map CommandDraft.toSpec)

include h h' hperm hplain

/-- In either order the same is found in a line. -/
theorem exists_parse_of_perm (context : Context) (line : String) :
    ∃ found found', d.parse context line = .ok found ∧ d'.parse context line = .ok found' ∧
      Option.Rel (d.tree.SameMatch d'.tree) found found' := by
  have hr := registered_of_registerAll h
  have hr' := registered_of_registerAll h'
  have hlineages := lineagesOf_perm hperm
  exact (hr.plain hplain).exists_found (hr'.plain (hplain.perm hlineages))
    (Tree.sameNames_of_perm hr hr' hlineages) context .root .root none none _ _

/-- A match runs the same command in either order. -/
theorem selectMatch_eq_of_perm {m m' : Match} (hm : d.tree.SameMatch d'.tree m m') :
    d'.selectMatch m' = d.selectMatch m := by
  have hr := registered_of_registerAll h
  have hr' := registered_of_registerAll h'
  have hlineages := lineagesOf_perm hperm
  have hp := hr.plain hplain
  have hp' := hr'.plain (hplain.perm hlineages)
  obtain ⟨name, names, hat, hat'⟩ := hm.names
  obtain ⟨node, hn⟩ := hat.exists_node? hr.wellFormed
  obtain ⟨node', hn'⟩ := hat'.exists_node? hr'.wellFormed
  have hcommand := Tree.command?_eq_of_perm hr hr' hlineages hp hp' hat hat' hn hn'
  simp only [selectMatch, hm.cursor, hm.trail, Tree.node_eq_ok.2 hn, Tree.node_eq_ok.2 hn',
    hp.isFlag_eq_false hat hn, hp'.isFlag_eq_false hat' hn', hcommand]

theorem select_eq_of_perm (context : Context) (line : String) :
    d'.select context line = d.select context line := by
  obtain ⟨found, found', hf, hf', hrel⟩ := exists_parse_of_perm h h' hperm hplain context line
  rw [select, select, hf, hf']
  cases hrel with
  | some hm => exact selectMatch_eq_of_perm h h' hperm hplain hm
  | none => rfl

end Perm

/-- **The order in which plain literals are registered makes no difference.** It breaks the same rule
in every order, or none. And then every line is matched alike, up to the places at which the nodes
are kept, and runs the same command with the same bindings. -/
theorem sameLines_of_perm (hperm : drafts.Perm others)
    (hplain : Spec.AllPlain (lineagesOf drafts)) :
    (∀ breach, registerAll {} drafts = .error breach ↔ registerAll {} others = .error breach) ∧
    ∀ d d', registerAll {} drafts = .ok d → registerAll {} others = .ok d' →
      ∀ context line,
        (∃ found found', d.parse context line = .ok found ∧ d'.parse context line = .ok found' ∧
          Option.Rel (d.tree.SameMatch d'.tree) found found') ∧
        d'.select context line = d.select context line ∧
        ∀ (σ : Type) (run : κ → Bindings → Action σ Unit),
          d'.execute run context line = d.execute run context line := by
  have hlineages := lineagesOf_perm hperm
  refine ⟨fun breach => ?_, fun d d' h h' context line => ⟨?_, ?_, fun σ run => ?_⟩⟩
  · rw [registerAll_eq_error_iff hplain, registerAll_eq_error_iff (hplain.perm hlineages)]
    refine and_congr_right fun _ => not_congr ⟨fun hd => hd.perm hlineages, fun hd => ?_⟩
    exact hd.perm hlineages.symm
  · exact exists_parse_of_perm h h' hperm hplain context line
  · exact select_eq_of_perm h h' hperm hplain context line
  · rw [execute, execute, select_eq_of_perm h h' hperm hplain]

/-- A literal with a number for its command, if it has one. -/
def numbered (name : String) (command : Option Nat) (children : List (Spec Nat)) :
    CommandDraft Nat :=
  { piece := .literal name, ending := { command }, children }

/-- Three literals, two of which have the same name, with one command for each name. -/
def fooTwiceAndGo : List (CommandDraft Nat) :=
  [numbered "foo" none [(numbered "bar" (some 1) []).toSpec],
    numbered "foo" (some 2) [(numbered "bar" none []).toSpec, (numbered "baz" none []).toSpec],
    numbered "go" (some 3) []]

/-- The other way round the nodes are at other places, and every line does what it did; a fourth
literal with a second command is refused in either order. -/
theorem sameLines_of_perm_reverse :
    ∃ d d' : Dispatcher Nat, Spec.AllPlain (lineagesOf fooTwiceAndGo) ∧
      registerAll {} fooTwiceAndGo = .ok d ∧ registerAll {} fooTwiceAndGo.reverse = .ok d' ∧
      d.tree.find? ["foo", "bar"] = .ok (some 2) ∧ d'.tree.find? ["foo", "bar"] = .ok (some 3) ∧
      (d.select .empty "foo bar").map (Option.map Prod.fst) = .ok (some 1) ∧
      (∀ context line, d'.select context line = d.select context line) ∧
      registerAll {} (numbered "foo" (some 4) [] :: fooTwiceAndGo) = .error .commandReplaced ∧
      registerAll {} (numbered "foo" (some 4) [] :: fooTwiceAndGo).reverse =
        .error .commandReplaced := by
  have hrun : (do
      let d ← registerAll {} fooTwiceAndGo
      let d' ← registerAll {} fooTwiceAndGo.reverse
      return (d.tree.find? ["foo", "bar"], d'.tree.find? ["foo", "bar"],
        (d.select .empty "foo bar").map (Option.map Prod.fst)) : Except Violation _) =
          .ok (.ok (some 2), .ok (some 3), .ok (some 1)) := by
    cbv
  obtain ⟨d, h, hrun⟩ := exists_of_bind_eq_ok hrun
  obtain ⟨d', h', hresult⟩ := exists_of_bind_eq_ok hrun
  simp only [pure, Except.pure, Except.ok.injEq, Prod.mk.injEq] at hresult
  obtain ⟨hfind, hfind', hselect⟩ := hresult
  have hplain : Spec.AllPlain (lineagesOf fooTwiceAndGo) := by decide +kernel
  have hplain' : Spec.AllPlain (lineagesOf (numbered "foo" (some 4) [] :: fooTwiceAndGo)) := by
    decide +kernel
  have hfour : registerAll {} (numbered "foo" (some 4) [] :: fooTwiceAndGo) =
      .error .commandReplaced :=
    (registerAll_eq_error_iff hplain').2 ⟨rfl, fun hd => absurd (hd ["foo"]) (by decide +kernel)⟩
  obtain ⟨-, hlines⟩ := sameLines_of_perm (List.reverse_perm fooTwiceAndGo).symm hplain
  obtain ⟨hbreach, -⟩ := sameLines_of_perm
    (List.reverse_perm (numbered "foo" (some 4) [] :: fooTwiceAndGo)).symm hplain'
  exact ⟨d, d', hplain, h, h', hfind, hfind', hselect,
    fun context line => (hlines d d' h h' context line).2.1, hfour, (hbreach _).1 hfour⟩

end Dispatcher

end CommandGrammar
