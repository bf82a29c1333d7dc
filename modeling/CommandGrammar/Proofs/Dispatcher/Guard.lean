import CommandGrammar.Proofs.Dispatcher.Registration

/-!
# Guards and merging

A spec that is registered with a requirement, or below one with a requirement, asks that its command
be run only in contexts that the requirement accepts. If there is a node of its name already, then
the two are merged, and the requirement of the later one is dropped: the command that it brings along
is run in every context that the requirement of the first one accepts.

Main statement: nothing else goes wrong (`Dispatcher.keepsGuards_iff_of_builtFrom`). A line that runs
the command of a lineage has passed the requirements of the first lineages with the same names. So
all requirements are kept exactly if those are of the specs that were merged with earlier ones, and
they are if no spec asks for more than the first one with its names.
-/

namespace CommandGrammar

variable {κ : Type}

/-- No spec asks for more than the first one with the same names. -/
def Spec.GuardsAgree (specs : List (Spec κ)) : Prop :=
  ∀ spec above first enclosing, (spec :: above) ∈ lineagesAll [] specs →
    firstAt (lineagesAll [] specs) (path (spec :: above)) = some (first :: enclosing) →
    ∀ context, first.accepts context = true → spec.accepts context = true

namespace Dispatcher

variable {d : Dispatcher κ} {specs : List (Spec κ)}

/-- A command is run only in contexts that its spec and all those that enclose it accept. -/
def KeepsGuards (d : Dispatcher κ) (specs : List (Spec κ)) : Prop :=
  ∀ context line lineage bindings, d.RunsOf specs context line lineage bindings →
    ∀ spec ∈ lineage, spec.accepts context = true

/-- Only the requirements of specs that were merged with earlier ones can be lost. -/
theorem keepsGuards_iff (hb : BuiltFrom specs d) (hn : Spec.NoRedirects specs) :
    d.KeepsGuards specs ↔
      ∀ context line lineage bindings, d.RunsOf specs context line lineage bindings →
        ∀ spec above, (spec :: above) <:+ lineage →
          Spec.firstAt (Spec.lineagesAll [] specs) (Spec.path (spec :: above)) ≠
            some (spec :: above) → spec.accepts context = true := by
  constructor
  · intro hkeeps context line lineage bindings hr spec above hs _
    exact hkeeps context line lineage bindings hr spec (hs.subset List.mem_cons_self)
  · intro hmerged context line lineage bindings hr spec hspec
    obtain ⟨above, hs⟩ := Spec.exists_suffix_of_mem hspec
    by_cases hfirst : Spec.firstAt (Spec.lineagesAll [] specs) (Spec.path (spec :: above)) =
        some (spec :: above)
    · obtain ⟨first, enclosing, hfirst', haccepts⟩ := hr.exists_first hb hn hs
      obtain ⟨rfl, -⟩ := List.cons.inj (Option.some.inj (hfirst.symm.trans hfirst'))
      exact haccepts
    · exact hmerged context line lineage bindings hr spec above hs hfirst

theorem keepsGuards_of_guardsAgree (hb : BuiltFrom specs d) (hn : Spec.NoRedirects specs)
    (hagree : Spec.GuardsAgree specs) : d.KeepsGuards specs := by
  intro context line lineage bindings hr spec hspec
  obtain ⟨above, hs⟩ := Spec.exists_suffix_of_mem hspec
  obtain ⟨first, enclosing, hfirst, haccepts⟩ := hr.exists_first hb hn hs
  exact hagree spec above first enclosing (hr.mem_of_suffix hs) hfirst context haccepts

/-- **Only the requirements of specs that were merged with earlier ones can be lost.** Every command
that a line runs is that of one lineage, and the context has passed the first requirements with its
names. All requirements are kept exactly if those of merged specs are, and they are if no spec asks
for more than the first one with its names. -/
theorem keepsGuards_iff_of_builtFrom (hb : BuiltFrom specs d) (hn : Spec.NoRedirects specs) :
    (∀ context line command bindings, d.command? context line = some (command, bindings) →
      ∃ lineage, d.RunsOf specs context line lineage bindings ∧
        lineage.head?.bind Spec.command? = some command ∧
        (∀ other bindings', d.RunsOf specs context line other bindings' → other = lineage) ∧
        ∀ spec above, (spec :: above) <:+ lineage → ∃ first enclosing,
          Spec.firstAt (Spec.lineagesAll [] specs) (Spec.path (spec :: above)) =
            some (first :: enclosing) ∧ first.accepts context = true) ∧
    (d.KeepsGuards specs ↔
      ∀ context line lineage bindings, d.RunsOf specs context line lineage bindings →
        ∀ spec above, (spec :: above) <:+ lineage →
          Spec.firstAt (Spec.lineagesAll [] specs) (Spec.path (spec :: above)) ≠
            some (spec :: above) → spec.accepts context = true) ∧
    (Spec.GuardsAgree specs → d.KeepsGuards specs) := by
  refine ⟨?_, keepsGuards_iff hb hn, keepsGuards_of_guardsAgree hb hn⟩
  intro context line command bindings hc
  obtain ⟨id, hr⟩ := command?_eq_some_iff.1 hc
  obtain ⟨lineage, hruns, hhead, hunique⟩ := hr.exists_lineage hb hn
  exact ⟨lineage, hruns, hhead, hunique, fun spec above hs => hruns.exists_first hb hn hs⟩

/-- Whether the context grants all rights. -/
def isSudo : Requirement := fun context => context.find? (⟨"sudo"⟩ : Key .bool) = some true

/-- A literal with a command and a requirement. -/
def guardedFoo : CommandDraft Unit := ⟨.literal "foo", some isSudo, ⟨some (), none⟩, []⟩

theorem drafted_guardedFoo : guardedFoo.Drafted :=
  ((CommandDraft.Drafted.literal "foo").executes
    (show (literal "foo").executes () = .ok { guardedFoo with requirement := none } from rfl)).requires
    isSudo

/-- The literal is registered behind another draft. -/
def guardedBehind (first : CommandDraft Unit) : Except Violation (Dispatcher Unit) := do
  let (d, _) ← ({} : Dispatcher Unit).register first
  let (d, _) ← d.register guardedFoo
  return d

theorem builtFrom_of_guardedBehind {first : CommandDraft Unit} {d : Dispatcher Unit}
    (hfirst : first.Drafted) (h : guardedBehind first = .ok d) :
    BuiltFrom [first.toSpec, guardedFoo.toSpec] d := by
  obtain ⟨⟨d₁, _⟩, h₁, h⟩ := exists_of_bind_eq_ok h
  obtain ⟨⟨d₂, _⟩, h₂, h⟩ := exists_of_bind_eq_ok h
  cases h
  exact ((BuiltFrom.start {}).register hfirst h₁).register drafted_guardedFoo h₂

/-- The draft that was there has the same requirement. -/
theorem keepsGuards_iff_of_builtFrom_guardedBehind :
    ∃ d : Dispatcher Unit, guardedBehind ((literal "foo").requires isSudo) = .ok d ∧
      BuiltFrom [((literal "foo").requires isSudo).toSpec, guardedFoo.toSpec] d ∧
      Spec.NoRedirects [((literal "foo").requires isSudo).toSpec, guardedFoo.toSpec] ∧
      d.KeepsGuards [((literal "foo").requires isSudo).toSpec, guardedFoo.toSpec] ∧
      (d.command? (Context.empty.put (⟨"sudo"⟩ : Key .bool) true) "foo").map Prod.fst = some () ∧
      d.command? .empty "foo" = none := by
  have hrun : (guardedBehind ((literal "foo").requires isSudo)).map (fun d =>
      ((d.command? (Context.empty.put (⟨"sudo"⟩ : Key .bool) true) "foo").map Prod.fst,
        (d.command? .empty "foo").isSome)) = .ok (some (), false) := by
    cbv
  obtain ⟨d, h, hd⟩ := exists_of_map_eq_ok hrun
  obtain ⟨hsudo, hnone⟩ := Prod.mk.inj hd
  have hb := builtFrom_of_guardedBehind ((CommandDraft.Drafted.literal "foo").requires isSudo) h
  have hn : Spec.NoRedirects [((literal "foo").requires isSudo).toSpec, guardedFoo.toSpec] := by
    decide
  have hagree : Spec.GuardsAgree [((literal "foo").requires isSudo).toSpec, guardedFoo.toSpec] := by
    intro spec above first enclosing hmem hfirst context haccepts
    -- either of the two is the first one, or behind it and asks for the same
    rcases List.mem_pair.1 hmem with e | e <;>
    · obtain ⟨rfl, rfl⟩ := List.cons.inj e
      obtain ⟨rfl, -⟩ := List.cons.inj (Option.some.inj hfirst)
      exact haccepts
  exact ⟨d, h, hb, hn, (keepsGuards_iff_of_builtFrom hb hn).2.2 hagree, hsudo, by simpa using hnone⟩

/-- **A requirement that comes second is lost**: the command is run where its own spec forbids it. -/
theorem exists_run_without_guard :
    ∃ d : Dispatcher Unit, guardedBehind (literal "foo") = .ok d ∧
      BuiltFrom [(literal "foo").toSpec, guardedFoo.toSpec] d ∧
      Spec.NoRedirects [(literal "foo").toSpec, guardedFoo.toSpec] ∧
      (∃ bindings, d.RunsOf [(literal "foo").toSpec, guardedFoo.toSpec] .empty "foo"
        [guardedFoo.toSpec] bindings) ∧
      guardedFoo.toSpec.accepts .empty = false ∧
      ¬ d.KeepsGuards [(literal "foo").toSpec, guardedFoo.toSpec] := by
  have hrun : (guardedBehind (literal "foo")).map (fun d => (d.command? .empty "foo").map Prod.fst) =
      .ok (some ()) := by
    cbv
  obtain ⟨d, h, hc⟩ := exists_of_map_eq_ok hrun
  obtain ⟨⟨_, bindings⟩, hc, -⟩ := Option.map_eq_some_iff.1 hc
  obtain ⟨id, hr⟩ := command?_eq_some_iff.1 hc
  have hb := builtFrom_of_guardedBehind (CommandDraft.Drafted.literal "foo") h
  have hn : Spec.NoRedirects [(literal "foo").toSpec, guardedFoo.toSpec] := by decide
  obtain ⟨lineage, hruns, hhead, -⟩ := hr.exists_lineage hb hn
  have hlineage : lineage = [guardedFoo.toSpec] := by
    rcases List.mem_pair.1 hruns.mem with rfl | rfl
    · cases hhead
    · rfl
  rw [hlineage] at hruns
  have hforbidden : guardedFoo.toSpec.accepts .empty = false := by decide
  refine ⟨d, h, hb, hn, ⟨bindings, hruns⟩, hforbidden, ?_⟩
  intro hkeeps
  have haccepts := hkeeps _ _ _ _ hruns _ List.mem_cons_self
  rw [hforbidden] at haccepts
  cases haccepts

end Dispatcher

end CommandGrammar
