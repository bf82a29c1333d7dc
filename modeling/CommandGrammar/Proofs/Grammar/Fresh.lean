import CommandGrammar.Proofs.Grammar.Childless
import CommandGrammar.Proofs.Grammar.Removal
import CommandGrammar.Proofs.Grammar.Union

/-!
# Adding under a name that is free

Where no child has the name of a spec, the spec is merged with nothing that was there. It becomes a
new node behind all others, and so does everything in it. Of the old nodes only the parent changes,
and only by its new child.

Main statements: the new child can be taken away again, and then all nodes of before are what they
were (`Tree.exists_remove_of_add`); and what lies below the new child is the spec, and nothing else
(`Tree.planted_of_add`, which says what a spec has become in terms of its lineages). A spec in which
the names side by side are different, and whose redirects lead somewhere, is never refused
(`Tree.exists_add_of_fits`).
-/

namespace CommandGrammar

open Relation

variable {κ : Type}

/-! ### Specs that fit -/

namespace Spec

/-- A spec has nothing to be merged in itself, and its redirects lead to literals or arguments of a
grammar: so it is however deep one looks into it. -/
def Fits (tree : Tree κ) (spec : Spec κ) : Prop :=
  ∀ inner, ReflTransGen (fun outer child => child ∈ outer.children) spec inner →
    (inner.children.map Spec.name).Nodup ∧
      ∀ target, inner.symbol.redirect? = some target → tree.isTarget target = true

variable {tree tree' : Tree κ} {spec : Spec κ}

theorem fits_iff : spec.Fits tree ↔
    ((spec.children.map Spec.name).Nodup ∧
      ∀ target, spec.symbol.redirect? = some target → tree.isTarget target = true) ∧
    ∀ child ∈ spec.children, child.Fits tree :=
  forall_inside_iff

theorem fits_of_no_children (hchildren : spec.children = [])
    (hr : spec.symbol.redirect? = none) : spec.Fits tree :=
  fits_iff.2 ⟨⟨by simp [hchildren], by simp [hr]⟩, by simp [hchildren]⟩

/-- It still fits when the grammar has grown. -/
theorem Fits.mono (h : spec.Fits tree)
    (hmono : ∀ id, tree.isTarget id = true → tree'.isTarget id = true) : spec.Fits tree' :=
  fun inner hi => ⟨(h inner hi).1, fun target hr => hmono target ((h inner hi).2 target hr)⟩

/-- Every path of a spec begins with its name. -/
theorem exists_cons_of_mem_paths {path : List String} (h : path ∈ spec.paths) :
    ∃ rest, path = spec.name :: rest := by
  obtain ⟨lineage, hl, rfl⟩ := List.mem_map.1 h
  obtain ⟨inner, rfl⟩ := suffix_of_mem_lineages hl
  exact ⟨names inner, by simp [names, Spec.path]⟩

end Spec

namespace Children

variable {tree : Tree κ} {children : Children} {parent id : NodeId} {symbol : Symbol κ}

/-- A child that comes under a free name and goes again leaves no trace. -/
theorem erase_insert (h : tree.Indexed parent children)
    (hf : children.byName.find? symbol.name = none) (hid : id ∉ children.order) :
    (children.insert symbol id).erase symbol.name id = children := by
  have hliterals : children.literals.find? symbol.name = none := by
    rw [Option.eq_none_iff_forall_ne_some]
    intro child hc
    have hname := ((h.literals symbol.name child).1 hc).1
    rw [hf] at hname
    cases hname
  have hkeep : ∀ ids : List NodeId, ids ⊆ children.order →
      ids.filter (fun other => decide (other ≠ id)) = ids := by
    intro ids hids
    rw [List.filter_eq_self]
    intro other hm
    rw [decide_eq_true_iff]
    rintro rfl
    exact hid (hids hm)
  have hadded : ∀ ids : List NodeId, ids ⊆ children.order →
      (ids ++ [id]).filter (fun other => decide (other ≠ id)) = ids := by
    intro ids hids
    rw [List.filter_append, hkeep ids hids]
    simp
  have harguments : children.arguments ⊆ children.order := by
    rw [h.arguments]
    exact List.filter_subset_self _
  have hflags : children.flags ⊆ children.order := by
    rw [h.flags]
    exact List.filter_subset_self _
  rw [erase, order_insert, byName_insert, literals_insert, arguments_insert, flags_insert,
    hadded _ (List.Subset.refl _), Table.erase_insert hf]
  obtain ⟨order, byName, literals, arguments, flags⟩ := children
  -- the child is in the order and among its own kind only
  rcases symbol with ⟨name | a, ending⟩ | c <;>
    simp only [Symbol.kind, Kind.isLiteral, Kind.isArgument, Kind.isFlag, ↓reduceIte,
      Bool.false_eq_true, mk.injEq, true_and]
  · exact ⟨Table.erase_insert hliterals id, hkeep _ harguments, hkeep _ hflags⟩
  · exact ⟨Table.erase_eq_self hliterals, hadded _ harguments, hkeep _ hflags⟩
  · exact ⟨Table.erase_eq_self hliterals, hkeep _ harguments, hadded _ hflags⟩

end Children

namespace Tree

variable {tree tree' : Tree κ} {parent id other : NodeId} {owner node : Node κ} {spec : Spec κ}
  {name : String} {path : List String}

/-! ### What comes and goes -/

theorem child?_eq_ok_none_iff :
    tree.child? parent name = .ok none ↔
      ∃ owner, tree.node? parent = some owner ∧ owner.children.byName.find? name = none := by
  unfold child?
  constructor
  · intro h
    obtain ⟨owner, ho, hf⟩ := exists_of_map_eq_ok h
    exact ⟨owner, node_eq_ok.1 ho, hf⟩
  · rintro ⟨owner, ho, hf⟩
    rw [node_eq_ok.2 ho, ← hf]
    rfl

/-- Under a free name a spec becomes a new node, and its children are added there. -/
theorem exists_of_add_of_free (hf : tree.child? parent spec.name = .ok none)
    (h : tree.add parent spec = .ok (tree', id)) :
    ∃ owner, tree.node? parent = some owner ∧
      owner.children.byName.find? spec.name = none ∧ id = tree.size ∧
      (tree.insert parent spec.symbol spec.requirement).addAll tree.size spec.children =
        .ok tree' := by
  obtain ⟨owner, ho, hf⟩ := child?_eq_ok_none_iff.1 hf
  obtain ⟨_, ho', ⟨hid, -⟩ | ⟨-, rfl, attached, hm, ha⟩⟩ := add_eq_ok h
  · obtain rfl := Option.some.inj (ho.symm.trans ho')
    rw [hf] at hid
    cases hid
  · obtain ⟨-, -, rfl⟩ := attach_eq_ok hm
    exact ⟨owner, ho, hf, rfl, ha⟩

/-- **Of the nodes that were there only the parent changes, and only by its new child.** -/
theorem node?_of_add_of_free (hw : tree.WellFormed) (hf : tree.child? parent spec.name = .ok none)
    (h : tree.add parent spec = .ok (tree', id)) (hn : tree.node? other = some node) :
    tree'.node? other = some (if parent = other then
      { node with children := node.children.insert spec.symbol tree.size } else node) := by
  obtain ⟨owner, ho, hf, rfl, ha⟩ := exists_of_add_of_free hf h
  have hlt := lt_size_of_node? hn
  have hattached := hw.insert spec.requirement ho hf
  have hrefl : (tree.insert parent spec.symbol spec.requirement).Grown tree.size
      (List.map Spec.names ([] : List (List (Spec κ)))) _ := .refl hattached
  obtain ⟨hgrown, -⟩ :=
    (Grown.keptByAdding _ tree.size).addAll hrefl (leads_nil_iff.2 rfl) (.inl rfl) ha
  -- names lead further down only, so from the new node they do not lead to an old one
  rw [hgrown.frame other (Nat.ne_of_lt hlt) fun path _ hl =>
      Nat.not_lt_of_le (hl.le hgrown.wellFormed) hlt,
    node?_insert (lt_size_of_node? ho), if_neg (Nat.ne_of_lt hlt), hn]
  split <;> rfl

/-- **A child under a free name can be taken away again, and leaves no trace in the nodes that were
there before.** -/
theorem exists_remove_of_add (hw : tree.WellFormed) (hf : tree.child? parent spec.name = .ok none)
    (h : tree.add parent spec = .ok (tree', id)) :
    ∃ later, tree'.remove parent spec.name = .ok (later, some id) ∧ tree.size ≤ later.size ∧
      ∀ other, other < tree.size → later.node? other = tree.node? other := by
  have hunion := hw.union_of_add h
  obtain ⟨later, hremove⟩ := exists_remove_of_child hunion.child
  obtain ⟨added, hadded, -, hlater, hsame⟩ := exists_of_remove hremove
  refine ⟨later, hremove, ?_, fun other hlt => ?_⟩
  · rw [hsame.size, hunion.size]
    exact Nat.le_add_right _ _
  obtain ⟨node, hn⟩ := exists_node?_of_lt_size hlt
  have hnode := node?_of_add_of_free hw hf h hn
  by_cases hparent : parent = other
  · subst hparent
    rw [if_pos rfl, hadded] at hnode
    obtain rfl := Option.some.inj hnode
    obtain ⟨owner, ho, hfree, rfl, -⟩ := exists_of_add_of_free hf h
    obtain rfl := Option.some.inj (hn.symm.trans ho)
    have hi := hw.indexed parent node hn
    rw [hlater, hn, show spec.name = spec.symbol.name from rfl,
      Children.erase_insert hi hfree fun hm => Nat.lt_irrefl _ (hi.bounds _ hm).2]
  · rw [if_neg hparent] at hnode
    rw [hsame.node? other (Ne.symm hparent), hnode, hn]

/-! ### No refusal -/

/-- A spec becomes a new node unless its redirect leads nowhere. -/
theorem attach_eq_ok_of_isTarget {symbol : Symbol κ} {requirement : Option Requirement}
    (hr : owner.redirect? = none)
    (ht : ∀ target, symbol.redirect? = some target → tree.isTarget target = true) :
    tree.attach parent owner symbol requirement = .ok (tree.insert parent symbol requirement) := by
  unfold attach
  rw [hr]
  cases hs : symbol.ending?.bind Ending.redirect with
  | none => rfl
  | some target =>
    have htarget := ht target hs
    simp [htarget, pure, Except.pure]

mutual

/-- **A spec that fits is not refused under a free name.** -/
theorem exists_add_of_fits {tree : Tree κ} {parent : NodeId} {owner : Node κ} :
    ∀ {spec : Spec κ}, tree.WellFormed → spec.Fits tree → spec.RedirectsChildless →
      tree.node? parent = some owner → owner.redirect? = none →
      owner.children.byName.find? spec.name = none →
      ∃ tree' id, tree.add parent spec = .ok (tree', id)
  | ⟨symbol, requirement, specs⟩, hw, hfits, hchildless, ho, hr, hf => by
    obtain ⟨⟨hnodup, htarget⟩, hspecs⟩ := Spec.fits_iff.1 hfits
    obtain ⟨hleaf, hbelow⟩ := Spec.redirectsChildless_iff.1 hchildless
    have hattach : tree.attach parent owner symbol requirement = .ok _ :=
      attach_eq_ok_of_isTarget hr htarget
    have hwf := hw.insert requirement ho hf
    have hnew := node?_insert (lt_size_of_node? ho) symbol requirement tree.size
    rw [if_pos rfl] at hnew
    have hmono : ∀ id, tree.isTarget id = true →
        (tree.insert parent symbol requirement).isTarget id = true := fun id ht =>
      (change_of_attach ho hf hattach).isTarget_mono ht
    obtain ⟨tree', ha⟩ : ∃ tree', (tree.insert parent symbol requirement).addAll tree.size specs =
        .ok tree' := by
      by_cases hempty : specs = []
      · subst hempty
        exact ⟨_, by rw [addAll]; rfl⟩
      · refine exists_addAll_of_fits hwf hnodup (fun spec hs => (hspecs spec hs).mono hmono) hbelow
          hnew ?_ fun spec _ => rfl
        by_contra hsome
        exact hempty (hleaf (Option.isSome_iff_ne_none.2 hsome))
    refine ⟨tree', tree.size, ?_⟩
    have hf : owner.children.byName.find? symbol.name = none := hf
    simp only [add, node_eq_ok.2 ho, bind, Except.bind, hf, hattach, ha]
    rfl

/-- Nor are several with different names. -/
theorem exists_addAll_of_fits {tree : Tree κ} {parent : NodeId} {owner : Node κ} :
    ∀ {specs : List (Spec κ)}, tree.WellFormed → (specs.map Spec.name).Nodup →
      (∀ spec ∈ specs, spec.Fits tree) → (∀ spec ∈ specs, spec.RedirectsChildless) →
      tree.node? parent = some owner → owner.redirect? = none →
      (∀ spec ∈ specs, owner.children.byName.find? spec.name = none) →
      ∃ tree', tree.addAll parent specs = .ok tree'
  | [], _, _, _, _, _, _, _ => ⟨tree, by rw [addAll]; rfl⟩
  | spec :: specs, hw, hnodup, hfits, hchildless, ho, hr, hf => by
    rw [List.map_cons, List.nodup_cons] at hnodup
    rw [List.forall_mem_cons] at hfits hchildless hf
    obtain ⟨added, id, ha⟩ := exists_add_of_fits hw hfits.1 hchildless.1 ho hr hf.1
    have hparent := node?_of_add_of_free hw (child?_eq_ok_none_iff.2 ⟨owner, ho, hf.1⟩) ha ho
    rw [if_pos rfl] at hparent
    have hmono : ∀ id, tree.isTarget id = true → added.isTarget id = true := fun id ht =>
      isTarget_mono_of_changes (changes_of_add ha) ht
    obtain ⟨tree', hrest⟩ := exists_addAll_of_fits (hw.changes (changes_of_add ha)) hnodup.2
      (fun other hm => (hfits.2 other hm).mono hmono) hchildless.2 hparent hr fun other hm => by
        rw [Children.byName_insert, Table.find?_insert, if_neg, hf.2 other hm]
        intro e
        exact hnodup.1 (List.mem_map.2 ⟨other, hm, e.symm⟩)
    refine ⟨tree', ?_⟩
    simp only [addAll, ha, bind, Except.bind, hrest]

end

/-! ### What grows under a free name -/

section Stems

variable {done : List (List (Spec κ))} {above : List (Spec κ)} {start : NodeId}

/-- The nodes of a grammar from some place on come from some lineages, and their redirects too. -/
structure StemsFrom (tree : Tree κ) (start : NodeId) (done : List (List (Spec κ))) : Prop extends
    tree.RegisteredSince start done where
  /-- Some lineage leads to the node. -/
  lineage : ∀ id, start ≤ id → id < tree.size → ∃ lineage ∈ done, tree.At (Spec.path lineage) id
  /-- A redirect of the node is one of a lineage that leads there. -/
  redirect : ∀ id target, start ≤ id → tree.redirect? id = some target →
    ∃ spec above, spec :: above ∈ done ∧ tree.At (Spec.path (spec :: above)) id ∧
      spec.symbol.redirect? = some target
  /-- The redirect of the first one that leads there is the redirect of the node. -/
  first : ∀ spec above id target, start ≤ id →
    Spec.firstAt done (Spec.path (spec :: above)) = some (spec :: above) →
    tree.At (Spec.path (spec :: above)) id → spec.symbol.redirect? = some target →
    tree.redirect? id = some target

namespace StemsFrom

theorem refl (hw : tree.WellFormed) : tree.StemsFrom tree.size [] where
  toRegisteredSince := .refl hw
  lineage _ hstart hlt := absurd hlt (Nat.not_lt_of_le hstart)
  redirect id target hstart hr := by
    obtain ⟨symbol, hs, -⟩ := Option.bind_eq_some_iff.1 hr
    exact absurd (lt_size_of_symbol? hs) (Nat.not_lt_of_le hstart)
  first _ _ _ _ _ hfirst := nomatch hfirst

section

variable (h : tree.StemsFrom start done) (hs : tree.NamesStay tree')
  (others : List (List (Spec κ)))
include h hs

/-- What is known of the redirects of the lineages that are done stays so with more of them, as long
as names lead where they led. -/
theorem redirect_stay {id target : NodeId} (hstart : start ≤ id)
    (hr : tree.redirect? id = some target) :
    ∃ spec above, spec :: above ∈ done ++ others ∧ tree'.At (Spec.path (spec :: above)) id ∧
      spec.symbol.redirect? = some target := by
  obtain ⟨spec, above, hm, hat, hredirect⟩ := h.redirect id target hstart hr
  exact ⟨spec, above, List.mem_append_left _ hm, hat.stay hs, hredirect⟩

/-- The redirect of a first lineage stays, as long as redirects do. -/
theorem first_stay (hredirect : ∀ id target, tree.redirect? id = some target →
      tree'.redirect? id = some target) {id target : NodeId} (hstart : start ≤ id)
    (hfirst : Spec.firstAt done (Spec.path (spec :: above)) = some (spec :: above))
    (hat : tree'.At (Spec.path (spec :: above)) id) (hr : spec.symbol.redirect? = some target) :
    tree'.redirect? id = some target := by
  obtain ⟨old, hold⟩ := h.placed _ (Spec.mem_of_firstAt hfirst).1
  obtain rfl := (hold.stay hs).id_eq hat
  exact hredirect old target (h.first spec above old target hstart hfirst hold hr)

end

/-- A spec that is merged may give its redirect to the node. -/
theorem absorb (h : tree.StemsFrom start done) (hat : tree.At (Spec.path (spec :: above)) id)
    (ha : tree.absorb id spec.symbol = .ok tree') :
    tree'.StemsFrom start (done ++ [spec :: above]) := by
  have hregistered := h.toRegisteredSince.absorb hat ha
  have hstay := namesStay_of_absorb ha
  obtain ⟨parent, owner, -, ho, hid⟩ := hat.exists_parent
  obtain ⟨node, symbol, result, hn, hs, hr, rfl⟩ := h.wellFormed.exists_of_absorb ho hid ha
  have hc : Change tree _ := .absorb ho hid hn hs hr
  refine ⟨hregistered, fun other hstart hlt => ?_, fun other target hstart hredirect => ?_,
    fun inner outer other target hstart hfirst hother hredirect => ?_⟩
  · rw [size_modify] at hlt
    obtain ⟨lineage, hm, hother⟩ := h.lineage other hstart hlt
    exact ⟨lineage, List.mem_append_left _ hm, hother.stay hstay⟩
  · rcases redirect?_modify_symbol_cases hn hs hr hredirect with hold | ⟨rfl, hnew⟩
    · exact h.redirect_stay hstay _ hstart hold
    · exact ⟨spec, above, by simp, hat.stay hstay, hnew⟩
  · rcases Spec.firstAt_append_cases hfirst with hfirst | ⟨hnone, e⟩
    · exact h.first_stay hstay (fun _ _ => hc.redirect?_mono) hstart hfirst hother hredirect
    · -- the node was there, so the lineage is not the first one
      rw [e] at hother hnone
      obtain rfl := (hat.stay hstay).id_eq hother
      obtain ⟨lineage, hm, hlineage⟩ := h.lineage id hstart (lt_size_of_node? hn)
      exact absurd (hlineage.names_eq h.wellFormed hat) (hnone lineage hm)

/-- A spec that becomes a new node is where that node comes from. -/
theorem attach (h : tree.StemsFrom start done) (hp : tree.At (Spec.path above) parent)
    (ho : tree.node? parent = some owner)
    (hf : owner.children.byName.find? spec.name = none)
    (ha : tree.attach parent owner spec.symbol spec.requirement = .ok tree') :
    tree'.StemsFrom start (done ++ [spec :: above]) := by
  have hregistered := h.toRegisteredSince.attach hp ho hf ha
  have hc := change_of_attach ho hf ha
  obtain ⟨-, -, rfl⟩ := attach_eq_ok ha
  have hstay := namesStay_insert ho hf spec.requirement
  have hat : (tree.insert parent spec.symbol spec.requirement).At (Spec.path (spec :: above))
      tree.size :=
    at_insert_new ho hf hp
  refine ⟨hregistered, fun other hstart hsize => ?_, fun other target hstart hredirect => ?_,
    fun inner outer other target hstart hfirst hother hredirect => ?_⟩
  · rw [size_insert, Nat.lt_succ_iff_lt_or_eq] at hsize
    rcases hsize with hold | rfl
    · obtain ⟨lineage, hm, hother⟩ := h.lineage other hstart hold
      exact ⟨lineage, List.mem_append_left _ hm, hother.stay hstay⟩
    · exact ⟨_, by simp, hat⟩
  · rcases redirect?_insert_cases ho hredirect with hold | ⟨rfl, hnew⟩
    · exact h.redirect_stay hstay _ hstart hold
    · exact ⟨spec, above, by simp, hat, hnew⟩
  · rcases Spec.firstAt_append_cases hfirst with hfirst | ⟨-, e⟩
    · exact h.first_stay hstay (fun _ _ => hc.redirect?_mono) hstart hfirst hother hredirect
    · obtain ⟨rfl, rfl⟩ := List.cons_eq_cons.1 e
      obtain rfl := hat.id_eq hother
      rw [redirect?, symbol?_insert (lt_size_of_node? ho), if_pos rfl]
      exact hredirect

/-- Both steps of adding specs below the root keep that. -/
theorem keptByAdding (start : NodeId) :
    KeptByAdding root fun done (tree : Tree κ) => tree.StemsFrom start done where
  absorb h hp ho hid ha := h.absorb (.child (at_iff_leads.2 hp) ho hid) ha
  attach h hp _ ho hf ha := h.attach (at_iff_leads.2 hp) ho hf ha

end StemsFrom

end Stems

/-- Names lead to what lies below. -/
theorem Leads.reflTransGen (hw : tree.WellFormed) (h : tree.Leads id path other) :
    ReflTransGen tree.IsChild id other := by
  induction path using List.reverseRecOn generalizing other with
  | nil =>
    obtain rfl := leads_nil_iff.1 h
    exact .refl
  | append_singleton path name ih =>
    obtain ⟨parent, owner, hp, ho, hid⟩ := leads_append_singleton_iff.1 h
    exact (ih hp).tail (hw.isChild_of_byName ho hid).1

theorem exists_leads_of_reflTransGen (hw : tree.WellFormed)
    (h : ReflTransGen tree.IsChild id other) : ∃ path, tree.Leads id path other := by
  induction h with
  | refl => exact ⟨[], leads_nil_iff.2 rfl⟩
  | tail _ hc ih =>
    obtain ⟨path, hpath⟩ := ih
    obtain ⟨name, hname⟩ := hw.exists_child?_of_isChild hc
    obtain ⟨owner, ho, hid⟩ := child?_eq_ok_some_iff.1 hname
    exact ⟨path ++ [name], leads_append_singleton_iff.2 ⟨_, owner, hpath, ho, hid⟩⟩

/-- What a spec has become under a name that was free below the root. -/
structure Planted (tree : Tree κ) (spec : Spec κ) (tree' : Tree κ) (id : NodeId) : Prop where
  /-- It has become a new node. -/
  id_eq : id = tree.size
  /-- Its name leads there. -/
  child : tree'.child? root spec.name = .ok (some id)
  /-- Below it there are the new nodes, and no others. -/
  below : ∀ other, ReflTransGen tree'.IsChild id other ↔ tree.size ≤ other ∧ other < tree'.size
  /-- They are those to which the paths of the spec lead. -/
  leads : ∀ other, ReflTransGen tree'.IsChild id other ↔
    ∃ path ∈ spec.paths, tree'.Leads root path other
  /-- Behind its name exactly the paths of the spec lead somewhere. -/
  resolves : ∀ path, tree'.Resolves root (spec.name :: path) ↔ spec.name :: path ∈ spec.paths
  /-- There are as many new nodes as paths. -/
  size : tree'.size = tree.size + spec.paths.toFinset.card
  /-- The new nodes stand for what the spec says, with its requirements, commands and redirects. -/
  stems : tree'.StemsFrom tree.size (spec.lineages [])

/-- **Under a free name grows the spec, and nothing else.** -/
theorem planted_of_add (hw : tree.WellFormed) (hf : tree.child? root spec.name = .ok none)
    (h : tree.add root spec = .ok (tree', id)) : tree.Planted spec tree' id := by
  have hw' := hw.changes (changes_of_add h)
  have hunion := hw.union_of_add h
  have hfree : ∀ rest, ¬ tree.Resolves root (spec.name :: rest) := by
    rintro rest ⟨goal, hgoal⟩
    obtain ⟨next, hnext, -⟩ := leads_cons_iff.1 hgoal
    rw [hf] at hnext
    cases hnext
  have hresolves : ∀ rest, tree'.Resolves root (spec.name :: rest) ↔
      spec.name :: rest ∈ spec.paths := fun rest =>
    (hunion.resolves _).trans (or_iff_right (hfree rest))
  have hstems : tree'.StemsFrom tree.size (spec.lineages []) :=
    ((StemsFrom.keptByAdding tree.size).add (.refl hw) (leads_nil_iff.2 rfl) (.inl rfl) h).1
  obtain ⟨-, -, -, hid, -⟩ := exists_of_add_of_free hf h
  have hleads : ∀ other, ReflTransGen tree'.IsChild id other ↔
      ∃ path ∈ spec.paths, tree'.Leads root path other := by
    intro other
    constructor
    · intro hbelow
      obtain ⟨rest, hrest⟩ := exists_leads_of_reflTransGen hw' hbelow
      have hpath := leads_cons_iff.2 ⟨id, hunion.child, hrest⟩
      exact ⟨_, (hresolves rest).1 ⟨other, hpath⟩, hpath⟩
    · rintro ⟨path, hm, hpath⟩
      obtain ⟨rest, rfl⟩ := Spec.exists_cons_of_mem_paths hm
      obtain ⟨next, hnext, hrest⟩ := leads_cons_iff.1 hpath
      obtain rfl := Option.some.inj (Except.ok.inj (hunion.child.symm.trans hnext))
      exact hrest.reflTransGen hw'
  refine ⟨hid, hunion.child, fun other => ⟨fun hbelow => ?_, ?_⟩, hleads, hresolves, ?_,
    hstems⟩
  · obtain ⟨path, hm, hpath⟩ := (hleads other).1 hbelow
    obtain ⟨rest, rfl⟩ := Spec.exists_cons_of_mem_paths hm
    obtain ⟨node, hn⟩ := hpath.exists_node? hw' (List.cons_ne_nil _ _)
    obtain ⟨rest, hrest⟩ := exists_leads_of_reflTransGen hw' hbelow
    exact ⟨hid ▸ hrest.le hw', lt_size_of_node? hn⟩
  · rintro ⟨hstart, hlt⟩
    obtain ⟨lineage, hm, hat⟩ := hstems.lineage other hstart hlt
    exact (hleads other).2 ⟨_, List.mem_map_of_mem hm, at_iff_leads.1 hat⟩
  · rw [hunion.size, Finset.filter_true_of_mem]
    intro path hm
    obtain ⟨rest, rfl⟩ := Spec.exists_cons_of_mem_paths (List.mem_toFinset.1 hm)
    exact hfree rest

end Tree

end CommandGrammar
