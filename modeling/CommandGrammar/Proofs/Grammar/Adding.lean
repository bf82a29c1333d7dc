import CommandGrammar.Proofs.Grammar.Names

/-!
# Adding a spec, one lineage after the other

Every spec in the one that is added, however deep it lies, has a lineage: itself and the specs that
enclose it (`Spec.lineages`). Adding a spec goes through its lineages in their order. The innermost
spec of each is merged with the child of its name, or becomes a new one, below the node to which the
names of the specs around it lead. Neither takes away a name that led to a node (`Tree.NamesStay`).

Main statement: what both of these steps keep is kept when a spec is added
(`Tree.KeptByAdding.add`), and when several are (`Tree.KeptByAdding.addAll`). What is kept may speak
of the lineages that are done, so nobody has to follow the recursion through a spec again.
-/

namespace CommandGrammar

variable {κ : Type}

/-! ### Lineages -/

namespace Spec

mutual

/-- The lineages of a spec and of the specs in it, in the order in which they are added. A lineage is
a spec with those that enclose it, the innermost first; `above` are those that enclose them all. -/
def lineages (above : List (Spec κ)) : Spec κ → List (List (Spec κ))
  | ⟨symbol, requirement, children⟩ =>
    (⟨symbol, requirement, children⟩ :: above) ::
      lineagesAll (⟨symbol, requirement, children⟩ :: above) children

/-- The lineages of several specs and of the specs in them. -/
def lineagesAll (above : List (Spec κ)) : List (Spec κ) → List (List (Spec κ))
  | [] => []
  | spec :: specs => spec.lineages above ++ lineagesAll above specs

end

/-- The names of a lineage, the innermost first. -/
def path (lineage : List (Spec κ)) : List String := lineage.map Spec.name

/-- The names of a lineage, the outermost first. -/
def names (lineage : List (Spec κ)) : List String := (path lineage).reverse

variable {spec : Spec κ} {above lineage : List (Spec κ)}

theorem lineagesAll_eq_flatMap (above specs : List (Spec κ)) :
    lineagesAll above specs = specs.flatMap (lineages above) := by
  induction specs with
  | nil => rfl
  | cons spec specs ih => rw [lineagesAll, ih, List.flatMap_cons]

theorem lineagesAll_append (above : List (Spec κ)) (specs others : List (Spec κ)) :
    lineagesAll above (specs ++ others) = lineagesAll above specs ++ lineagesAll above others := by
  simp only [lineagesAll_eq_flatMap, List.flatMap_append]

theorem lineagesAll_singleton (above : List (Spec κ)) (spec : Spec κ) :
    lineagesAll above [spec] = spec.lineages above := by
  rw [lineagesAll_eq_flatMap, List.flatMap_singleton]

theorem names_cons (spec : Spec κ) (above : List (Spec κ)) :
    names (spec :: above) = names above ++ [spec.name] := by
  simp [names, path]

theorem exists_suffix_of_mem (h : spec ∈ lineage) : ∃ above, (spec :: above) <:+ lineage := by
  obtain ⟨inner, above, rfl⟩ := List.append_of_mem h
  exact ⟨above, List.suffix_append inner _⟩

mutual

/-- What encloses a spec is one of those around all, or has its own lineage. -/
theorem mem_lineages_of_suffix {above lineage enclosing : List (Spec κ)} :
    ∀ {spec : Spec κ}, lineage ∈ spec.lineages above → enclosing <:+ lineage →
      enclosing <:+ above ∨ enclosing ∈ spec.lineages above
  | ⟨symbol, requirement, specs⟩, hl, he => by
    rw [lineages, List.mem_cons] at hl
    have hself : enclosing <:+ ⟨symbol, requirement, specs⟩ :: above →
        enclosing <:+ above ∨ enclosing ∈ lineages above ⟨symbol, requirement, specs⟩ := by
      rw [List.suffix_cons_iff, lineages]
      rintro (rfl | he)
      · exact .inr List.mem_cons_self
      · exact .inl he
    rcases hl with rfl | hl
    · exact hself he
    · rcases mem_lineagesAll_of_suffix hl he with he | he
      · exact hself he
      · rw [lineages]
        exact .inr (List.mem_cons_of_mem _ he)

theorem mem_lineagesAll_of_suffix {above lineage enclosing : List (Spec κ)} :
    ∀ {specs : List (Spec κ)}, lineage ∈ lineagesAll above specs → enclosing <:+ lineage →
      enclosing <:+ above ∨ enclosing ∈ lineagesAll above specs
  | [], hl, _ => nomatch hl
  | spec :: specs, hl, he => by
    rw [lineagesAll, List.mem_append] at hl ⊢
    rcases hl with hl | hl
    · exact (mem_lineages_of_suffix hl he).imp_right .inl
    · exact (mem_lineagesAll_of_suffix hl he).imp_right .inr

end

mutual

/-- Every lineage in a spec goes up to the spec. -/
theorem suffix_of_mem_lineages {above lineage : List (Spec κ)} :
    ∀ {spec : Spec κ}, lineage ∈ spec.lineages above → (spec :: above) <:+ lineage
  | ⟨symbol, requirement, specs⟩, h => by
    rw [lineages, List.mem_cons] at h
    rcases h with rfl | h
    · exact List.suffix_refl _
    · exact suffix_of_mem_lineagesAll h

theorem suffix_of_mem_lineagesAll {above lineage : List (Spec κ)} :
    ∀ {specs : List (Spec κ)}, lineage ∈ lineagesAll above specs → above <:+ lineage
  | [], h => nomatch h
  | spec :: specs, h => by
    rw [lineagesAll, List.mem_append] at h
    rcases h with h | h
    · exact (List.suffix_cons spec above).trans (suffix_of_mem_lineages h)
    · exact suffix_of_mem_lineagesAll h

end

end Spec

/-! ### Names that stay -/

namespace Tree

variable {tree before now later : Tree κ} {base parent id : NodeId} {owner : Node κ}

/-- Names that lead to a node still do. -/
def NamesStay (tree tree' : Tree κ) : Prop :=
  ∀ start path id, tree.Leads start path id → tree'.Leads start path id

theorem NamesStay.refl (tree : Tree κ) : tree.NamesStay tree := fun _ _ _ hl => hl

theorem NamesStay.trans (h : before.NamesStay now) (h' : now.NamesStay later) :
    before.NamesStay later :=
  fun start path id hl => h' start path id (h start path id hl)

theorem namesStay_modify_symbol (tree : Tree κ) (id : NodeId) (symbol : Symbol κ) :
    tree.NamesStay (tree.modify id fun node => { node with symbol? := some symbol }) :=
  fun _ _ _ hl => leads_modify_symbol.2 hl

theorem namesStay_insert {symbol : Symbol κ} (ho : tree.node? parent = some owner)
    (hf : owner.children.byName.find? symbol.name = none) (requirement : Option Requirement) :
    tree.NamesStay (tree.insert parent symbol requirement) :=
  fun _ _ _ hl => (leads_insert_iff ho hf).2 (.inl hl)

theorem namesStay_of_absorb {incoming : Symbol κ} (h : now.absorb id incoming = .ok later) :
    now.NamesStay later := by
  obtain ⟨node, -, ⟨-, rfl⟩ | ⟨-, result, -, -, rfl⟩⟩ := absorb_eq_ok h
  · exact .refl _
  · exact namesStay_modify_symbol now id result

/-! ### One step after the other -/

/-- Both steps of adding specs below a node keep a property of the lineages that are done and the
grammar at hand. -/
structure KeptByAdding (base : NodeId) (P : List (List (Spec κ)) → Tree κ → Prop) : Prop where
  /-- The innermost spec of a lineage is merged with the child of its name. -/
  absorb {done : List (List (Spec κ))} {now later : Tree κ} {spec : Spec κ}
    {above : List (Spec κ)} {parent id : NodeId} {owner : Node κ} : P done now →
    now.Leads base (Spec.names above) parent → now.node? parent = some owner →
    owner.children.byName.find? spec.name = some id →
    now.absorb id spec.symbol = .ok later → P (done ++ [spec :: above]) later
  /-- It becomes a new child below the node of those around it, whose lineage is done if there are
  any. -/
  attach {done : List (List (Spec κ))} {now later : Tree κ} {spec : Spec κ}
    {above : List (Spec κ)} {parent : NodeId} {owner : Node κ} : P done now →
    now.Leads base (Spec.names above) parent → (above = [] ∨ above ∈ done) →
    now.node? parent = some owner → owner.children.byName.find? spec.name = none →
    now.attach parent owner spec.symbol spec.requirement = .ok later →
    P (done ++ [spec :: above]) later

namespace KeptByAdding

variable {P : List (List (Spec κ)) → Tree κ → Prop}

mutual

/-- **What both steps keep is kept when a spec is added**, and the names of the spec lead to the node
that it has become. -/
theorem add (hP : KeptByAdding base P) {done : List (List (Spec κ))} {now later : Tree κ}
    {above : List (Spec κ)} {parent id : NodeId} : ∀ {spec : Spec κ}, P done now →
    now.Leads base (Spec.names above) parent → (above = [] ∨ above ∈ done) →
    now.add parent spec = .ok (later, id) →
    P (done ++ spec.lineages above) later ∧ now.NamesStay later ∧
      later.Leads base (Spec.names (spec :: above)) id
  | ⟨symbol, requirement, specs⟩, h, hp, habove, ha => by
    rw [Spec.lineages, List.append_cons]
    obtain ⟨owner, ho, ⟨hid, merged, hm, ha⟩ | ⟨hf, rfl, attached, hm, ha⟩⟩ := add_eq_ok ha
    · have hstay := namesStay_of_absorb hm
      have hat : merged.Leads base (Spec.names (⟨symbol, requirement, specs⟩ :: above)) id := by
        refine hstay _ _ _ ?_
        rw [Spec.names_cons]
        exact leads_append_singleton_iff.2 ⟨parent, owner, hp, ho, hid⟩
      obtain ⟨hadded, hstay'⟩ := hP.addAll (hP.absorb h hp ho hid hm) hat (by simp) ha
      exact ⟨hadded, hstay.trans hstay', hstay' _ _ _ hat⟩
    · have hattached := hP.attach h hp habove ho hf hm
      obtain ⟨-, -, rfl⟩ := attach_eq_ok hm
      have hstay := namesStay_insert ho hf requirement
      have hat : (now.insert parent symbol requirement).Leads base
          (Spec.names (⟨symbol, requirement, specs⟩ :: above)) now.size := by
        rw [Spec.names_cons]
        exact (leads_insert_iff ho hf).2 (.inr ⟨_, hp, rfl, rfl⟩)
      obtain ⟨hadded, hstay'⟩ := hP.addAll hattached hat (by simp) ha
      exact ⟨hadded, hstay.trans hstay', hstay' _ _ _ hat⟩

/-- What both steps keep is kept when several specs are added. -/
theorem addAll (hP : KeptByAdding base P) {done : List (List (Spec κ))} {now later : Tree κ}
    {above : List (Spec κ)} {parent : NodeId} : ∀ {specs : List (Spec κ)}, P done now →
    now.Leads base (Spec.names above) parent → (above = [] ∨ above ∈ done) →
    now.addAll parent specs = .ok later →
    P (done ++ Spec.lineagesAll above specs) later ∧ now.NamesStay later
  | [], h, _, _, ha => by
    rw [Tree.addAll] at ha
    cases ha
    rw [Spec.lineagesAll, List.append_nil]
    exact ⟨h, .refl _⟩
  | spec :: specs, h, hp, habove, ha => by
    obtain ⟨added, id, ha, hall⟩ := addAll_cons_eq_ok ha
    obtain ⟨hadded, hstay, -⟩ := hP.add h hp habove ha
    obtain ⟨hrest, hstay'⟩ := hP.addAll hadded (hstay _ _ _ hp)
      (habove.imp_right fun hm => List.mem_append_left _ hm) hall
    rw [List.append_assoc] at hrest
    exact ⟨hrest, hstay.trans hstay'⟩

end

end KeptByAdding

end Tree

end CommandGrammar
