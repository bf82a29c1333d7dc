import CommandGrammar.Proofs.Dispatcher.Run
import CommandGrammar.Proofs.Grammar.Lineage

/-!
# Which registration a line runs

A dispatcher is built from specs that are registered one after the other (`Dispatcher.BuiltFrom`).
If none of them has a redirect, then a line that runs a command runs that of exactly one lineage
among them (`Dispatcher.RunsAt.exists_lineage`).

Main statement: the visits of the line go along that lineage (`Dispatcher.RunsOf.exists_visits`). Up
to the last literal or argument, one node is visited for each spec of the lineage, and no other.
-/

namespace CommandGrammar

variable {κ : Type}

/-- No spec has a redirect, nor has one of those in it. -/
def Spec.NoRedirects (specs : List (Spec κ)) : Prop :=
  ∀ lineage ∈ lineagesAll [] specs, ∀ spec ∈ lineage, spec.symbol.redirect? = none

instance (specs : List (Spec κ)) : Decidable (Spec.NoRedirects specs) :=
  inferInstanceAs (Decidable (∀ lineage ∈ Spec.lineagesAll [] specs, ∀ spec ∈ lineage,
    spec.symbol.redirect? = none))

/-- The name of the node of a visit. -/
def Visit.name (v : Visit) : String := v.part.kind.name

/-- A flag binds no argument. -/
theorem Visit.binding?_of_isFlag {v : Visit} (h : v.isFlag = true) (key : ArgumentKey) :
    v.binding? key = none := by
  obtain ⟨id, part, start, stop⟩ := v
  cases part with
  | literal name => cases h
  | argument a value => cases h
  | flag c => rfl

namespace Tree

variable {tree : Tree κ} {context : Context} {c d : Cursor} {id : NodeId} {v : Visit}
  {front back : List Visit} {names : List String}

/-- Without redirects, the names of the visits lead to the node of the last one. -/
theorem Path.at_of_append (hw : tree.WellFormed) (hno : ∀ id, tree.redirect? id = none)
    (h : tree.Path context id c (front ++ v :: back) d) (hat : tree.At names id) :
    tree.At (((front ++ [v]).map Visit.name).reverse ++ names) v.id := by
  have hname : ∀ {w : Visit}, tree.Visits context w → tree.name? w.id = some w.name := by
    intro w hw
    rw [name?, hw.kind]
    rfl
  induction front generalizing id c names with
  | nil =>
    cases h with
    | cons hc hv _ _ => exact hat.isChild hw hc (hname hv)
  | cons w front ih =>
    cases h with
    | cons hc hv _ hpath =>
      have hbelow := hat.isChild hw hc (hname hv)
      rw [onward_of_redirect?_none (hno w.id)] at hpath
      have hlast := ih hpath hbelow
      simpa using hlast

end Tree

namespace Dispatcher

variable {d : Dispatcher κ} {specs : List (Spec κ)} {context : Context} {line : String}
  {id other : NodeId} {command command' : κ} {bindings bindings' : Bindings}
  {lineage above : List (Spec κ)} {spec : Spec κ}

/-- A dispatcher that comes out of one without commands by registering specs, in their order. -/
inductive BuiltFrom : List (Spec κ) → Dispatcher κ → Prop where
  /-- There is no command yet. -/
  | start (style : UsageStyle) : BuiltFrom [] { style }
  /-- One more spec is registered. -/
  | register {specs : List (Spec κ)} {d d' : Dispatcher κ} {draft : CommandDraft κ} {id : NodeId} :
      BuiltFrom specs d → draft.Drafted → d.register draft = .ok (d', id) →
      BuiltFrom (specs ++ [draft.toSpec]) d'

theorem BuiltFrom.reachable (h : BuiltFrom specs d) : d.Reachable := by
  induction h with
  | start style => exact .start style
  | register _ hd h ih => exact ih.register hd h

/-- The grammar holds what the specs have left. -/
theorem BuiltFrom.registered (h : BuiltFrom specs d) :
    d.tree.Registered (Spec.lineagesAll [] specs) := by
  induction h with
  | start style => exact .empty
  | register _ _ h ih =>
    obtain ⟨⟨tree, id⟩, ha, h⟩ := exists_of_bind_eq_ok h
    cases h
    rw [Spec.lineagesAll_append, Spec.lineagesAll_singleton]
    exact ih.add ha

theorem BuiltFrom.redirect?_eq_none (h : BuiltFrom specs d) (hn : Spec.NoRedirects specs)
    (id : NodeId) : d.tree.redirect? id = none := by
  cases hr : d.tree.redirect? id with
  | none => rfl
  | some target =>
    obtain ⟨lineage, hl, spec, hs, hspec⟩ := h.registered.redirects id target hr
    rw [hn lineage hl spec hs] at hspec
    cases hspec

/-- A line runs the command of the innermost spec of a lineage. -/
def RunsOf (d : Dispatcher κ) (specs : List (Spec κ)) (context : Context) (line : String)
    (lineage : List (Spec κ)) (bindings : Bindings) : Prop :=
  ∃ id command, d.RunsAt context line id command bindings ∧
    lineage ∈ Spec.lineagesAll [] specs ∧ d.tree.At (Spec.path lineage) id ∧
    lineage.head?.bind Spec.command? = some command

theorem RunsOf.mem (h : d.RunsOf specs context line lineage bindings) :
    lineage ∈ Spec.lineagesAll [] specs := by
  obtain ⟨id, command, -, hmem, -⟩ := h
  exact hmem

/-- The specs that enclose the one whose command is run are registered as well. -/
theorem RunsOf.mem_of_suffix (h : d.RunsOf specs context line lineage bindings)
    (hs : (spec :: above) <:+ lineage) : (spec :: above) ∈ Spec.lineagesAll [] specs := by
  rcases Spec.mem_lineagesAll_of_suffix h.mem hs with hnil | hmem
  · cases List.eq_nil_of_suffix_nil hnil
  · exact hmem

/-- The visits of a line go along a lineage: one to each of its specs, and none elsewhere. -/
structure Follows (d : Dispatcher κ) (context : Context) (lineage : List (Spec κ))
    (bindings : Bindings) (visits : List Visit) : Prop where
  /-- The nodes may be used, and what stands in the line is what is read. -/
  valid : ∀ v ∈ visits, d.tree.Visits context v
  /-- Every visit is to the node of a spec of the lineage. -/
  along : ∀ v ∈ visits, ∃ spec above, (spec :: above) <:+ lineage ∧
    d.tree.At (Spec.path (spec :: above)) v.id
  /-- Every spec of the lineage has its visit. -/
  covers : ∀ spec above, (spec :: above) <:+ lineage →
    ∃ v ∈ visits, d.tree.At (Spec.path (spec :: above)) v.id
  /-- The arguments that were read are the ones that are bound. -/
  arguments : ∀ key,
    bindings.arguments.find? key = (visits.filterMap (Visit.binding? key)).getLast?

/-- A line runs one command at most. -/
theorem RunsAt.unique (h : d.RunsAt context line id command bindings)
    (h' : d.RunsAt context line other command' bindings') :
    id = other ∧ command = command' ∧ bindings = bindings' := by
  obtain ⟨m, hp, rfl, hm⟩ := h
  obtain ⟨m', hp', rfl, hm'⟩ := h'
  obtain rfl := Option.some.inj (Except.ok.inj (hp.symm.trans hp'))
  obtain ⟨rfl, rfl⟩ := Prod.mk.inj (Option.some.inj (Except.ok.inj (hm.symm.trans hm')))
  exact ⟨rfl, rfl, rfl⟩

/-- The names of the visits up to the last literal or argument lead to the node whose command is
run, and those up to an earlier visit to the node of that one. -/
theorem RunsAt.exists_visits (hb : BuiltFrom specs d) (hn : Spec.NoRedirects specs)
    (h : d.RunsAt context line id command bindings) :
    ∃ visits : List Visit, visits ≠ [] ∧ d.tree.At (visits.map Visit.name).reverse id ∧
      (∀ front (v : Visit) back, visits = front ++ v :: back →
        d.tree.At ((front ++ [v]).map Visit.name).reverse v.id) ∧
      (∀ v ∈ visits, d.tree.Visits context v) ∧
      ∀ key, bindings.arguments.find? key =
        (visits.filterMap (Visit.binding? key)).getLast? := by
  have hw := hb.reachable.tree.wellFormed
  have hno := hb.redirect?_eq_none hn
  obtain ⟨m, front, v, back, hlast, honward, rfl⟩ := exists_last_piece hb.reachable h
  have hpath := hlast.explains.path
  rw [List.append_cons] at hpath
  have hat : ∀ init (w : Visit) rest, front ++ [v] = init ++ w :: rest →
      d.tree.At ((init ++ [w]).map Visit.name).reverse w.id := by
    intro init w rest e
    rw [e, List.append_assoc] at hpath
    have hinit := hpath.at_of_append hw hno .root
    rwa [List.append_nil] at hinit
  rw [Tree.onward_of_redirect?_none (hno v.id)] at honward
  refine ⟨front ++ [v], by simp, honward ▸ hat front v [] rfl, hat, ?_, ?_⟩
  · intro w hw
    exact hpath.visits_of_mem (List.mem_append_left back hw)
  · intro key
    have hback : back.filterMap (Visit.binding? key) = [] := by
      rw [List.filterMap_eq_nil_iff]
      intro w hw
      exact Visit.binding?_of_isFlag (hlast.flags w hw) key
    have harguments := hlast.explains.arguments key
    rwa [List.append_cons, List.filterMap_append, hback, List.append_nil] at harguments

/-- **A line runs the command of exactly one lineage.** -/
theorem RunsAt.exists_lineage (hb : BuiltFrom specs d) (hn : Spec.NoRedirects specs)
    (h : d.RunsAt context line id command bindings) :
    ∃ lineage, d.RunsOf specs context line lineage bindings ∧
      lineage.head?.bind Spec.command? = some command ∧
      ∀ other bindings', d.RunsOf specs context line other bindings' → other = lineage := by
  have hw := hb.reachable.tree.wellFormed
  obtain ⟨visits, hne, hat, -⟩ := h.exists_visits hb hn
  obtain ⟨node, hnode, hcommand⟩ := h.exists_node
  cases hnames : (visits.map Visit.name).reverse with
  | nil => simp [hne] at hnames
  | cons name names =>
    rw [hnames] at hat
    have hcommands := hb.registered.commands name names id node hat hnode
      (Node.isFlag_of_command? hcommand)
    rw [hcommand, Option.toList_some] at hcommands
    -- the one lineage with a command that leads to the node, and the others
    obtain ⟨earlier, lineage, later, hdone, hearlier, hlineage, hlater⟩ :=
      List.filterMap_eq_cons_iff.1 hcommands
    rw [List.filterMap_eq_nil_iff] at hlater
    obtain ⟨hpath, hhead⟩ := Spec.commandAt_eq_some_iff.1 hlineage
    have hmem : lineage ∈ Spec.lineagesAll [] specs := by simp [hdone]
    refine ⟨lineage, ⟨id, command, h, hmem, hpath ▸ hat, hhead⟩, hhead, ?_⟩
    rintro other bindings' ⟨id', command', h', hother, hat', hhead'⟩
    obtain ⟨rfl, rfl, -⟩ := h.unique h'
    have hat_other := Spec.commandAt_eq_some_iff.2 ⟨hat'.names_eq hw hat, hhead'⟩
    rw [hdone, List.mem_append, List.mem_cons] at hother
    rcases hother with hother | rfl | hother
    · rw [hearlier other hother] at hat_other
      cases hat_other
    · rfl
    · rw [hlater other hother] at hat_other
      cases hat_other

/-- **The visits of a line go along the lineage whose command is run.** -/
theorem RunsOf.exists_visits (hb : BuiltFrom specs d) (hn : Spec.NoRedirects specs)
    (h : d.RunsOf specs context line lineage bindings) :
    ∃ visits, d.Follows context lineage bindings visits := by
  obtain ⟨id, command, hr, -, hlineage, -⟩ := h
  obtain ⟨visits, -, hat, hprefix, hvisits, harguments⟩ := hr.exists_visits hb hn
  have hnames := hlineage.names_eq hb.reachable.tree.wellFormed hat
  refine ⟨visits, hvisits, ?_, ?_, harguments⟩
  · intro v hv
    obtain ⟨front, back, rfl⟩ := List.append_of_mem hv
    -- the names up to the visit are the last ones of the lineage
    rw [List.append_cons, List.map_append, List.reverse_append, Spec.path,
      List.map_eq_append_iff] at hnames
    obtain ⟨inner, enclosing, rfl, -, henclosing⟩ := hnames
    have hv := hprefix front v back rfl
    rw [← henclosing] at hv
    cases enclosing with
    | nil => simp at henclosing
    | cons spec above => exact ⟨spec, above, List.suffix_append inner _, hv⟩
  · rintro spec above ⟨inner, rfl⟩
    rw [Spec.path, List.map_append, ← List.reverse_inj, List.reverse_reverse, List.reverse_append,
      eq_comm, List.map_eq_append_iff] at hnames
    obtain ⟨init, rest, rfl, hinit, -⟩ := hnames
    rcases List.eq_nil_or_concat' init with rfl | ⟨front, v, rfl⟩
    · simp at hinit
    · have hv := hprefix front v rest (List.append_cons front v rest).symm
      rw [hinit, List.reverse_reverse] at hv
      exact ⟨v, by simp, hv⟩

/-- A visit to the node of a spec is to one that stands for what the first spec with its names does,
and that spec accepts the context. -/
theorem Follows.exists_first {visits : List Visit} {v : Visit} (hb : BuiltFrom specs d)
    (h : d.Follows context lineage bindings visits) (hv : v ∈ visits)
    (hat : d.tree.At (Spec.path (spec :: above)) v.id) :
    ∃ first enclosing, Spec.firstAt (Spec.lineagesAll [] specs) (Spec.path (spec :: above)) =
      some (first :: enclosing) ∧ first.symbol.kind = v.part.kind ∧
      first.accepts context = true := by
  have hvisit := h.valid v hv
  obtain ⟨node, hnode, hu⟩ := hvisit.canUse
  obtain ⟨first, enclosing, hfirst, hkind, hrequirement⟩ :=
    hb.registered.origin _ _ v.id node hat hnode
  refine ⟨first, enclosing, hfirst, Option.some.inj (hkind.symm.trans hvisit.kind), ?_⟩
  rw [Spec.accepts, ← hrequirement]
  exact hu

/-- A line that runs the command of a lineage has passed the requirement of the first spec with the
names of each of its specs. -/
theorem RunsOf.exists_first (hb : BuiltFrom specs d) (hn : Spec.NoRedirects specs)
    (h : d.RunsOf specs context line lineage bindings) (hs : (spec :: above) <:+ lineage) :
    ∃ first enclosing, Spec.firstAt (Spec.lineagesAll [] specs) (Spec.path (spec :: above)) =
      some (first :: enclosing) ∧ first.accepts context = true := by
  obtain ⟨visits, hvisits⟩ := h.exists_visits hb hn
  obtain ⟨v, hv, hat⟩ := hvisits.covers spec above hs
  obtain ⟨first, enclosing, hfirst, -, haccepts⟩ := hvisits.exists_first hb hv hat
  exact ⟨first, enclosing, hfirst, haccepts⟩

end Dispatcher

end CommandGrammar
