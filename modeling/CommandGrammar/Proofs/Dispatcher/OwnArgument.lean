import CommandGrammar.Proofs.Dispatcher.Registration

/-!
# Arguments and merging

The command of a spec is written for the arguments of the spec itself and of those that enclose it.
They are told apart by their identity and not by their name. If a spec is merged with an earlier one
of its name, then what is read is the argument that was there, and the command, which came along, may
look for another one that has no value.

Main statement: nothing else goes wrong (`Dispatcher.findsArguments_iff_of_builtFrom`). A line that
runs the command of a lineage has values for exactly those arguments that the first specs with its
names stand for. So commands find their arguments exactly if each of those is an argument of such a
first spec; and if they do, no command that asks for nothing else misses one.
-/

namespace CommandGrammar

variable {κ : Type}

namespace Spec

/-- The spec is an argument of an identity. -/
def Takes (spec : Spec κ) (key : ArgumentKey) : Prop :=
  ∃ a, spec.symbol.kind = .argument a ∧ a.key = key

/-- An argument is the first spec with the names of a lineage or of one of those that enclose it. -/
def FirstTakes (specs : List (Spec κ)) (lineage : List (Spec κ)) (key : ArgumentKey) : Prop :=
  ∃ spec above first enclosing, (spec :: above) <:+ lineage ∧
    firstAt (lineagesAll [] specs) (path (spec :: above)) = some (first :: enclosing) ∧
    first.Takes key

/-- Every argument is the same one as that of the first spec with the same names. -/
def ArgumentsAgree (specs : List (Spec κ)) : Prop :=
  ∀ spec above first enclosing key, (spec :: above) ∈ lineagesAll [] specs →
    firstAt (lineagesAll [] specs) (path (spec :: above)) = some (first :: enclosing) →
    spec.Takes key → first.Takes key

end Spec

theorem Visit.isSome_binding?_iff {v : Visit} {key : ArgumentKey} :
    (v.binding? key).isSome = true ↔ ∃ a, v.part.kind = .argument a ∧ a.key = key := by
  obtain ⟨id, part, start, stop⟩ := v
  cases part with
  | literal name => simp [binding?, Part.kind]
  | argument a value => by_cases h : a.key = key <;> simp [binding?, Part.kind, h]
  | flag c => simp [binding?, Part.kind]

namespace Dispatcher

variable {d : Dispatcher κ} {specs : List (Spec κ)} {context : Context} {line : String}
  {bindings : Bindings} {lineage above : List (Spec κ)} {spec : Spec κ} {visits : List Visit}

/-- Every command finds the arguments of its spec and of those that enclose it. -/
def FindsArguments (d : Dispatcher κ) (specs : List (Spec κ)) : Prop :=
  ∀ context line lineage bindings, d.RunsOf specs context line lineage bindings →
    ∀ spec ∈ lineage, ∀ a, spec.symbol.kind = .argument a → bindings.hasArgument a = true

/-- If a command misses an argument, then it is one of its spec or of one that encloses it. -/
def ReadsOwn {σ : Type} (specs : List (Spec κ)) (run : κ → Bindings → Action σ Unit) : Prop :=
  ∀ lineage ∈ Spec.lineagesAll [] specs, ∀ command,
    lineage.head?.bind Spec.command? = some command → ∀ bindings (s : σ) name,
      ((run command bindings).run.run s).1 = .error (.violation (.missingArgument name)) →
        ∃ spec ∈ lineage, ∃ a, spec.symbol.kind = .argument a ∧ bindings.hasArgument a = false

/-- An argument has a value if one was read for its identity. -/
theorem Follows.hasArgument_iff (h : d.Follows context lineage bindings visits) (a : Argument) :
    bindings.hasArgument a = true ↔
      ∃ v ∈ visits, ∃ b, v.part.kind = .argument b ∧ b.key = a.key := by
  rw [Bindings.hasArgument, Bindings.find?, Option.isSome_map, h.arguments, List.getLast?_isSome]
  constructor
  · intro hne
    obtain ⟨binding, hb⟩ := List.exists_mem_of_ne_nil _ hne
    obtain ⟨v, hv, hvb⟩ := List.mem_filterMap.1 hb
    exact ⟨v, hv, Visit.isSome_binding?_iff.1 (Option.isSome_of_eq_some hvb)⟩
  · rintro ⟨v, hv, hkind⟩
    obtain ⟨binding, hb⟩ := Option.isSome_iff_exists.1 (Visit.isSome_binding?_iff.2 hkind)
    exact List.ne_nil_of_mem (List.mem_filterMap.2 ⟨v, hv, hb⟩)

/-- **A line that runs the command of a lineage has values for the arguments that are first with its
names**, and for no others. -/
theorem RunsOf.hasArgument_iff (hb : BuiltFrom specs d) (hn : Spec.NoRedirects specs)
    (h : d.RunsOf specs context line lineage bindings) (a : Argument) :
    bindings.hasArgument a = true ↔ Spec.FirstTakes specs lineage a.key := by
  obtain ⟨visits, hvisits⟩ := h.exists_visits hb hn
  rw [hvisits.hasArgument_iff]
  constructor
  · rintro ⟨v, hv, b, hkind, hkey⟩
    obtain ⟨spec, above, hs, hat⟩ := hvisits.along v hv
    obtain ⟨first, enclosing, hfirst, hpart, -⟩ := hvisits.exists_first hb hv hat
    exact ⟨spec, above, first, enclosing, hs, hfirst, b, hpart.trans hkind, hkey⟩
  · rintro ⟨spec, above, first, enclosing, hs, hfirst, b, hkind, hkey⟩
    obtain ⟨v, hv, hat⟩ := hvisits.covers spec above hs
    obtain ⟨first', enclosing', hfirst', hpart, -⟩ := hvisits.exists_first hb hv hat
    obtain ⟨rfl, -⟩ := List.cons.inj (Option.some.inj (hfirst.symm.trans hfirst'))
    exact ⟨v, hv, b, hpart.symm.trans hkind, hkey⟩

theorem selectMatch_ne_missingArgument (m : Match) (name : String) :
    d.selectMatch m ≠ .error (.violation (.missingArgument name)) := by
  unfold selectMatch Tree.node
  intro h
  split at h
  · cases h
  · cases hn : d.tree.node? m.node with
    | none =>
      rw [hn] at h
      cases h
    | some node =>
      rw [hn] at h
      simp only at h
      split at h <;> cases h

/-- Selecting a command does not miss an argument. -/
theorem select_ne_missingArgument (hb : BuiltFrom specs d) (hn : Spec.NoRedirects specs)
    (name : String) :
    d.select context line ≠ .error (.violation (.missingArgument name)) := by
  have hw := hb.reachable.tree.wellFormed
  have hstay : d.tree.RedirectsStay := by
    intro id target hr
    rw [hb.redirect?_eq_none hn] at hr
    cases hr
  have hparse : d.parse context line ≠ .error (.violation (.missingArgument name)) :=
    Tree.matchFrom_ne_violation hw hstay hw.root
  unfold select
  cases hp : d.parse context line with
  | error failure =>
    intro h
    cases h
    exact hparse hp
  | ok found =>
    cases found with
    | none =>
      intro h
      cases h
    | some m =>
      simp only
      exact selectMatch_ne_missingArgument m name

/-- Commands find their arguments if these are first with the names of their lineage. -/
theorem findsArguments_iff (hb : BuiltFrom specs d) (hn : Spec.NoRedirects specs) :
    d.FindsArguments specs ↔
      ∀ context line lineage bindings, d.RunsOf specs context line lineage bindings →
        ∀ spec ∈ lineage, ∀ key, spec.Takes key → Spec.FirstTakes specs lineage key := by
  constructor
  · rintro hfinds context line lineage bindings hr spec hspec key ⟨a, hkind, rfl⟩
    exact (hr.hasArgument_iff hb hn a).1 (hfinds _ _ _ _ hr spec hspec a hkind)
  · intro hfirst context line lineage bindings hr spec hspec a hkind
    exact (hr.hasArgument_iff hb hn a).2 (hfirst _ _ _ _ hr spec hspec a.key ⟨a, hkind, rfl⟩)

theorem findsArguments_of_argumentsAgree (hb : BuiltFrom specs d) (hn : Spec.NoRedirects specs)
    (hagree : Spec.ArgumentsAgree specs) : d.FindsArguments specs := by
  refine (findsArguments_iff hb hn).2 ?_
  intro context line lineage bindings hr spec hspec key htakes
  obtain ⟨above, hs⟩ := Spec.exists_suffix_of_mem hspec
  obtain ⟨first, enclosing, hfirst, -⟩ := hr.exists_first hb hn hs
  exact ⟨spec, above, first, enclosing, hs, hfirst,
    hagree spec above first enclosing key (hr.mem_of_suffix hs) hfirst htakes⟩

/-- A command that finds its arguments and asks for no others misses none. -/
theorem FindsArguments.execute_ne_missingArgument {σ : Type} {run : κ → Bindings → Action σ Unit}
    (hfinds : d.FindsArguments specs) (hb : BuiltFrom specs d) (hn : Spec.NoRedirects specs)
    (hown : ReadsOwn specs run) (context : Context) (line : String) (s : σ) (name : String) :
    ((d.execute run context line).run.run s).1 ≠ .error (.violation (.missingArgument name)) := by
  rw [execute]
  cases hselect : d.select context line with
  | error failure =>
    intro h
    cases show Except.error failure = Except.error (.violation (.missingArgument name)) from h
    exact select_ne_missingArgument hb hn name hselect
  | ok selected =>
    intro h
    rcases selected with _ | ⟨command, bindings⟩
    · cases h
    · obtain ⟨id, hr⟩ := select_eq_ok_some_iff.1 hselect
      obtain ⟨lineage, hruns, hhead, -⟩ := hr.exists_lineage hb hn
      obtain ⟨spec, hspec, a, hkind, hmissing⟩ :=
        hown lineage hruns.mem command hhead bindings s name h
      rw [hfinds _ _ _ _ hruns spec hspec a hkind] at hmissing
      cases hmissing

/-- **Only an argument that was merged with another one can be missed.** A line that runs the command
of a lineage has values for exactly the arguments that are first with its names. So all commands find
their arguments exactly if each of these is first itself, and they do if arguments of the same names
are the same. If they do, then no command misses an argument that asks for its own ones only. -/
theorem findsArguments_iff_of_builtFrom (hb : BuiltFrom specs d) (hn : Spec.NoRedirects specs) :
    (∀ context line lineage bindings a, d.RunsOf specs context line lineage bindings →
      (bindings.hasArgument a = true ↔ Spec.FirstTakes specs lineage a.key)) ∧
    (d.FindsArguments specs ↔
      ∀ context line lineage bindings, d.RunsOf specs context line lineage bindings →
        ∀ spec ∈ lineage, ∀ key, spec.Takes key → Spec.FirstTakes specs lineage key) ∧
    (Spec.ArgumentsAgree specs → d.FindsArguments specs) ∧
    (d.FindsArguments specs → ∀ {σ : Type} (run : κ → Bindings → Action σ Unit),
      ReadsOwn specs run → ∀ context line (s : σ) name,
        ((d.execute run context line).run.run s).1 ≠
          .error (.violation (.missingArgument name))) := by
  refine ⟨?_, findsArguments_iff hb hn, findsArguments_of_argumentsAgree hb hn, ?_⟩
  · intro context line lineage bindings a hr
    exact hr.hasArgument_iff hb hn a
  · intro hfinds σ run hown
    exact hfinds.execute_ne_missingArgument hb hn hown

/-- A word of one name and some number. -/
def wordX (serial : Nat) : Argument := ⟨⟨"x", serial⟩, .text .word⟩

/-- A literal with an argument below it, which has a command that reads an argument, or none. -/
def fooWith (a : Argument) (command : Option Argument) : CommandDraft Argument :=
  ⟨.literal "foo", none, {}, [⟨.piece (.argument a) ⟨command, none⟩, none, []⟩]⟩

theorem drafted_fooWith (a : Argument) (command : Option Argument) :
    (fooWith a command).Drafted :=
  (CommandDraft.Drafted.literal "foo").child (Spec.drafted_of_no_children _ none) rfl

/-- Two such literals, of which the second one has a command that reads the argument above it. -/
def fooSpecs (first second : Argument) : List (Spec Argument) :=
  [(fooWith first none).toSpec, (fooWith second (some second)).toSpec]

/-- The two are registered. -/
def fooTwice (first second : Argument) : Except Violation (Dispatcher Argument) := do
  let (d, _) ← ({} : Dispatcher Argument).register (fooWith first none)
  let (d, _) ← d.register (fooWith second (some second))
  return d

theorem builtFrom_of_fooTwice {first second : Argument} {d : Dispatcher Argument}
    (h : fooTwice first second = .ok d) : BuiltFrom (fooSpecs first second) d := by
  obtain ⟨⟨d₁, _⟩, h₁, h⟩ := exists_of_bind_eq_ok h
  obtain ⟨⟨d₂, _⟩, h₂, h⟩ := exists_of_bind_eq_ok h
  cases h
  exact ((BuiltFrom.start {}).register (drafted_fooWith _ _) h₁).register (drafted_fooWith _ _) h₂

/-- The only lineage of the two literals with a command is that of the second argument. -/
theorem eq_of_mem_fooSpecs {first second command : Argument} {lineage : List (Spec Argument)}
    (hl : lineage ∈ Spec.lineagesAll [] (fooSpecs first second))
    (hc : lineage.head?.bind Spec.command? = some command) :
    command = second ∧
      lineage = [⟨.piece (.argument second) ⟨some second, none⟩, none, []⟩,
        (fooWith second (some second)).toSpec] := by
  rcases hl with _ | ⟨_, _ | ⟨_, _ | ⟨_, _ | ⟨_, hl⟩⟩⟩⟩
  · cases hc
  · cases hc
  · cases hc
  · cases hc
    exact ⟨rfl, rfl⟩
  · cases hl

/-- Reads an argument, and does nothing else. -/
def readIt (a : Argument) (bindings : Bindings) : Action Unit Unit :=
  match bindings.get a with
  | .ok _ => pure ()
  | .error failure => throw failure

theorem readsOwn_readIt (first second : Argument) : ReadsOwn (fooSpecs first second) readIt := by
  intro lineage hl command hc bindings s name h
  obtain ⟨rfl, rfl⟩ := eq_of_mem_fooSpecs hl hc
  refine ⟨_, List.mem_cons_self, command, rfl, ?_⟩
  unfold readIt Bindings.get at h
  unfold Bindings.hasArgument
  cases hfind : bindings.find? command with
  | none => rfl
  | some value =>
    rw [hfind] at h
    cases h

/-- Both times it is the same argument, so its command finds it. -/
theorem findsArguments_iff_of_builtFrom_fooTwice :
    ∃ d : Dispatcher Argument, fooTwice (wordX 0) (wordX 0) = .ok d ∧
      BuiltFrom (fooSpecs (wordX 0) (wordX 0)) d ∧
      Spec.NoRedirects (fooSpecs (wordX 0) (wordX 0)) ∧
      d.FindsArguments (fooSpecs (wordX 0) (wordX 0)) ∧
      ReadsOwn (fooSpecs (wordX 0) (wordX 0)) readIt ∧
      (d.command? .empty "foo ann").map Prod.fst = some (wordX 0) ∧
      ∀ context line name, ((d.execute readIt context line).run.run ()).1 ≠
        .error (.violation (.missingArgument name)) := by
  have hrun : (fooTwice (wordX 0) (wordX 0)).map (fun d =>
      (d.command? .empty "foo ann").map Prod.fst) = .ok (some (wordX 0)) := by
    cbv
  obtain ⟨d, h, hc⟩ := exists_of_map_eq_ok hrun
  have hb := builtFrom_of_fooTwice h
  have hn : Spec.NoRedirects (fooSpecs (wordX 0) (wordX 0)) := by decide
  have hagree : Spec.ArgumentsAgree (fooSpecs (wordX 0) (wordX 0)) := by
    rintro spec above first enclosing key hmem hfirst ⟨a, hkind, rfl⟩
    -- a literal is no argument, and the second argument is the first one
    rcases hmem with _ | ⟨_, _ | ⟨_, _ | ⟨_, _ | ⟨_, hmem⟩⟩⟩⟩
    · cases hkind
    · cases hfirst
      exact ⟨a, hkind, rfl⟩
    · cases hkind
    · cases hfirst
      exact ⟨a, hkind, rfl⟩
    · cases hmem
  obtain ⟨-, -, hfinds, hnever⟩ := findsArguments_iff_of_builtFrom hb hn
  exact ⟨d, h, hb, hn, hfinds hagree, readsOwn_readIt _ _, hc, fun context line name =>
    hnever (hfinds hagree) readIt (readsOwn_readIt _ _) context line () name⟩

/-- **An argument that comes second is not read**: its own command misses it. -/
theorem exists_missed_argument :
    ∃ d : Dispatcher Argument, fooTwice (wordX 0) (wordX 1) = .ok d ∧
      BuiltFrom (fooSpecs (wordX 0) (wordX 1)) d ∧
      Spec.NoRedirects (fooSpecs (wordX 0) (wordX 1)) ∧
      ReadsOwn (fooSpecs (wordX 0) (wordX 1)) readIt ∧
      ((d.execute readIt .empty "foo ann").run.run ()).1 =
        .error (.violation (.missingArgument "x")) ∧
      ¬ d.FindsArguments (fooSpecs (wordX 0) (wordX 1)) := by
  have hrun : (fooTwice (wordX 0) (wordX 1)).map (fun d =>
      (((d.execute readIt .empty "foo ann").run.run ()).1,
        (d.command? .empty "foo ann").map fun found => found.2.hasArgument (wordX 1))) =
          .ok (.error (.violation (.missingArgument "x")), some false) := by
    cbv
  obtain ⟨d, h, hd⟩ := exists_of_map_eq_ok hrun
  obtain ⟨hexecute, hmissing⟩ := Prod.mk.inj hd
  obtain ⟨⟨command, bindings⟩, hc, hmissing⟩ := Option.map_eq_some_iff.1 hmissing
  obtain ⟨id, hr⟩ := command?_eq_some_iff.1 hc
  have hb := builtFrom_of_fooTwice h
  have hn : Spec.NoRedirects (fooSpecs (wordX 0) (wordX 1)) := by decide
  refine ⟨d, h, hb, hn, readsOwn_readIt _ _, hexecute, ?_⟩
  intro hfinds
  obtain ⟨lineage, hruns, hhead, -⟩ := hr.exists_lineage hb hn
  obtain ⟨-, rfl⟩ := eq_of_mem_fooSpecs hruns.mem hhead
  rw [hfinds _ _ _ _ hruns _ List.mem_cons_self (wordX 1) rfl] at hmissing
  cases hmissing

end Dispatcher

end CommandGrammar
