import CommandGrammar.Proofs.Dispatcher.Restriction
import CommandGrammar.Proofs.Grammar.Removal

/-!
# Hidden commands and usage lines

A usage line tells of nodes that may be used only. So taking a node that is hidden in a context away
from its parent changes no usage in that context, of whichever node and in whichever style
(`Tree.usage_eq_of_remove`).

The path in front of usage lines is another matter. Names lead to a node whether it may be used or
not, and so the names of a hidden node give the usage of what is below it.

Main statement: this is how hidden nodes are told from nodes that are not there
(`Dispatcher.usageLines_eq_iff_of_remove_hidden`). The two agree on a path exactly if its names lead
nowhere, or lead somewhere without passing the hidden node.
-/

namespace CommandGrammar

variable {κ : Type}

/-- A node as it is after a removal: without the child, if it was the parent. -/
def Node.without (parent : NodeId) (name : String) (id other : NodeId) (node : Node κ) : Node κ :=
  if other = parent then { node with children := node.children.erase name id } else node

namespace Node

variable {parent id other : NodeId} {name : String} (node : Node κ)

@[simp] theorem symbol?_without : (node.without parent name id other).symbol? = node.symbol? := by
  unfold without
  split <;> rfl

@[simp] theorem canUse_without (context : Context) :
    (node.without parent name id other).canUse context = node.canUse context := by
  unfold without
  split <;> rfl

@[simp] theorem fragment_without (style : UsageStyle) :
    (node.without parent name id other).fragment style = node.fragment style := by
  unfold fragment Node.name
  rw [symbol?_without]

@[simp] theorem ending?_without : (node.without parent name id other).ending? = node.ending? := by
  unfold ending?
  rw [symbol?_without]

@[simp] theorem redirect?_without :
    (node.without parent name id other).redirect? = node.redirect? := by
  unfold redirect?
  rw [ending?_without]

@[simp] theorem command?_without :
    (node.without parent name id other).command? = node.command? := by
  unfold command?
  rw [ending?_without]

@[simp] theorem restOptional_without :
    (node.without parent name id other).restOptional = node.restOptional := by
  unfold restOptional
  rw [ending?_without]

end Node

namespace Tree

variable {tree tree' : Tree κ} {context : Context} {parent id other : NodeId} {name : String}

/-! ### The usage without a hidden child -/

theorem node_of_remove (hr : tree.remove parent name = .ok (tree', some id)) (other : NodeId) :
    tree'.node other = (tree.node other).map (Node.without parent name id other) := by
  obtain ⟨owner, ho, -, ho', hsame⟩ := exists_of_remove hr
  by_cases hother : other = parent
  · subst hother
    rw [node_eq_ok.2 ho, node_eq_ok.2 ho', Except.map, Node.without, if_pos rfl]
  · rw [hsame.node_eq hother]
    cases tree.node other with
    | error violation => rfl
    | ok node => rw [Except.map, Node.without, if_neg hother]

theorem canUse_of_remove (hr : tree.remove parent name = .ok (tree', some id)) (other : NodeId) :
    tree'.canUse other context = tree.canUse other context := by
  rw [canUse, canUse, node_of_remove hr]
  cases tree.node other with
  | error violation => rfl
  | ok node => simp [Except.map]

/-- A hidden node is not among those that may be used. -/
theorem usable_filter (hu : tree.canUse id context = .ok false) (ids : List NodeId) :
    tree.usable context (ids.filter (· ≠ id)) = tree.usable context ids := by
  induction ids with
  | nil => rfl
  | cons other ids ih =>
    by_cases hother : other = id
    · subst hother
      obtain ⟨node, hn, hhidden⟩ := canUse_eq_ok.1 hu
      rw [List.filter_cons_of_neg (by simp), ih, usable, node_eq_ok.2 hn]
      cases tree.usable context ids <;> simp [bind, Except.bind, pure, Except.pure, hhidden]
    · rw [List.filter_cons_of_pos (by simpa using hother), usable, usable, ih]

/-- The children of a node that may be used are the same without a hidden one. -/
theorem usable_without (hu : tree.canUse id context = .ok false) (node : Node κ) :
    tree.usable context (node.without parent name id other).children.order =
      tree.usable context node.children.order := by
  unfold Node.without
  split
  · exact usable_filter hu node.children.order
  · rfl

theorem usable_of_remove (hr : tree.remove parent name = .ok (tree', some id))
    (ids : List NodeId) :
    tree'.usable context ids = (tree.usable context ids).map
      (List.map fun (other, node) => (other, node.without parent name id other)) := by
  induction ids with
  | nil => rfl
  | cons other ids ih =>
    rw [usable, usable, node_of_remove hr, ih]
    cases tree.node other with
    | error violation => rfl
    | ok node =>
      cases tree.usable context ids with
      | error violation => rfl
      | ok others =>
        simp only [bind, Except.bind, pure, Except.pure, Except.map, Node.canUse_without]
        split <;> rfl

/-- The line of a node follows nodes that may be used only. -/
theorem describe_eq_of_remove (hr : tree.remove parent name = .ok (tree', some id))
    (hu : tree.canUse id context = .ok false) (style : UsageStyle) (other : NodeId)
    (optional : Bool) :
    tree'.describe style context other optional = tree.describe style context other optional := by
  have hsize : tree'.size = tree.size := (exists_of_remove hr).choose_spec.2.2.2.size
  induction hm : tree.size - other using Nat.strongRecOn generalizing other optional with
  | ind n ih =>
    rw [describe, describe, node_of_remove hr]
    cases hn : tree.node other with
    | error violation => rfl
    | ok node =>
      simp only [Except.map, bind, Except.bind, Node.fragment_without, Node.redirect?_without]
      cases node.redirect? with
      | some target =>
        simp only [node_of_remove hr]
        cases tree.node target <;> simp [Except.map]
      | none =>
        simp only [usable_of_remove hr, usable_without hu, Node.restOptional_without, hsize]
        rcases tree.usable context node.children.order with _ | _ | ⟨⟨only, onlyNode⟩, _ | _⟩
        · rfl
        · rfl
        · simp only [Except.map, List.map_cons, List.map_nil, Node.fragment_without]
          split
          · rfl
          · split
            · rename_i hlt
              rw [ih _ (hm ▸ Nat.sub_lt_sub_left (Nat.lt_trans hlt.1 hlt.2) hlt.1) only false rfl]
            · rfl
        · simp [Except.map, alternatives, Function.comp_def]

theorem describeAll_eq_of_remove (hr : tree.remove parent name = .ok (tree', some id))
    (hu : tree.canUse id context = .ok false) (style : UsageStyle) (optional : Bool)
    (ids : List NodeId) :
    tree'.describeAll style context optional ids = tree.describeAll style context optional ids := by
  induction ids with
  | nil => rfl
  | cons other ids ih =>
    rw [describeAll, describeAll, canUse_of_remove hr, describe_eq_of_remove hr hu, ih]

/-- Nor is a hidden node among those that have a line. -/
theorem describeAll_filter (hu : tree.canUse id context = .ok false) (style : UsageStyle)
    (optional : Bool) (ids : List NodeId) :
    tree.describeAll style context optional (ids.filter (· ≠ id)) =
      tree.describeAll style context optional ids := by
  induction ids with
  | nil => rfl
  | cons other ids ih =>
    by_cases hother : other = id
    · subst hother
      rw [List.filter_cons_of_neg (by simp), ih, describeAll, hu]
      rfl
    · rw [List.filter_cons_of_pos (by simpa using hother), describeAll, describeAll, ih]

/-- **No usage tells of a hidden node**: without it every usage is the same. -/
theorem usage_eq_of_remove (hr : tree.remove parent name = .ok (tree', some id))
    (hu : tree.canUse id context = .ok false) (style : UsageStyle) (other : NodeId) :
    tree'.usage style context other = tree.usage style context other := by
  rw [usage, usage, node_of_remove hr]
  cases tree.node other with
  | error violation => rfl
  | ok node =>
    simp only [Except.map, bind, Except.bind, describeAll_eq_of_remove hr hu,
      Node.command?_without]
    unfold Node.without
    split
    · exact describeAll_filter hu style _ _
    · rfl

/-! ### The path -/

/-- In a well-formed grammar there is nothing wrong with names that lead nowhere. -/
theorem WellFormed.findFrom?_eq_none_iff (hw : tree.WellFormed) {start : NodeId}
    (hstart : start < tree.size) {path : List String} :
    tree.findFrom? start path = .ok none ↔ ¬ tree.Resolves start path := by
  induction path generalizing start with
  | nil => simp [findFrom?, Resolves, leads_nil_iff]
  | cons first path ih =>
    obtain ⟨node, hn⟩ := exists_node?_of_lt_size hstart
    unfold Resolves
    simp only [leads_cons_iff, findFrom?, child?, node_eq_ok.2 hn, Except.map]
    cases hid : node.children.byName.find? first with
    | none => simp
    | some next =>
      have hchild := (hw.isChild_of_byName hn hid).1
      simpa [Resolves] using ih (hw.bounds_of_isChild hchild).2

end Tree

namespace Dispatcher

variable {d : Dispatcher κ} {tree' : Tree κ} {context : Context} {parent id : NodeId}
  {name : String} {path : List String}

/-- There are no usage lines only for names that lead nowhere. -/
theorem usageLines_eq_none_iff (hw : d.tree.WellFormed) :
    d.usageLines context path = .ok none ↔ ¬ d.tree.Resolves Tree.root path := by
  rw [← hw.findFrom?_eq_none_iff hw.root]
  unfold usageLines Tree.find?
  rcases d.tree.findFrom? Tree.root path with violation | _ | last
  · simp [bind, Except.bind]
  · simp [bind, Except.bind, pure, Except.pure]
  · cases hlines : d.usage context last <;>
      simp [bind, Except.bind, pure, Except.pure, hlines]

/-- Names that still lead to the same node have the same usage lines without a hidden node. -/
theorem usageLines_eq_of_remove (hr : d.tree.remove parent name = .ok (tree', some id))
    (hu : d.tree.canUse id context = .ok false) {last : NodeId}
    (hleads : d.tree.Leads Tree.root path last) (hleads' : tree'.Leads Tree.root path last) :
    ({ d with tree := tree' } : Dispatcher κ).usageLines context path =
      d.usageLines context path := by
  unfold Tree.Leads at hleads hleads'
  simp only [usageLines, Tree.find?, hleads, hleads', bind, Except.bind, usage,
    Tree.usage_eq_of_remove hr hu]

/-- **The path tells what the lines do not.** A child that is hidden in a context is taken away from
its parent. Names that pass it have no usage lines then, and all others have those of before. Before
the removal the names that pass it and lead somewhere have usage lines as well. -/
theorem usageLines_eq_iff_of_remove_hidden (h : d.tree.Reachable)
    (hchild : d.tree.child? parent name = .ok (some id))
    (hu : d.tree.canUse id context = .ok false) :
    ∃ tree', d.tree.remove parent name = .ok (tree', some id) ∧ ∀ path,
      (({ d with tree := tree' } : Dispatcher κ).usageLines context path =
          d.usageLines context path ↔
        ¬ (d.tree.Passes Tree.root path id ∧ d.tree.Resolves Tree.root path)) ∧
      (d.tree.Passes Tree.root path id →
        ({ d with tree := tree' } : Dispatcher κ).usageLines context path = .ok none) ∧
      (d.usageLines context path = .ok none ↔ ¬ d.tree.Resolves Tree.root path) := by
  have hw := h.wellFormed
  obtain ⟨tree', hr⟩ := Tree.exists_remove_of_child hchild
  have hw' : tree'.WellFormed := Tree.Reachable.wellFormed (h.tail (.remove hr))
  have hresolves : ∀ path, tree'.Resolves Tree.root path ↔
      d.tree.Resolves Tree.root path ∧ ¬ d.tree.Passes Tree.root path id := by
    intro path
    simp only [Tree.Resolves, Tree.leads_iff_of_remove hw hr, exists_and_right]
  have hnone : ∀ path, ¬ tree'.Resolves Tree.root path →
      ({ d with tree := tree' } : Dispatcher κ).usageLines context path = .ok none :=
    fun path => (usageLines_eq_none_iff (d := { d with tree := tree' }) hw').2
  refine ⟨tree', hr, fun path => ⟨?_, fun hpasses => ?_, usageLines_eq_none_iff hw⟩⟩
  · by_cases hsome : d.tree.Resolves Tree.root path
    · by_cases hpasses : d.tree.Passes Tree.root path id
      · rw [hnone path fun hafter => ((hresolves path).1 hafter).2 hpasses]
        refine iff_of_false (fun heq => ?_) (by simp [hpasses, hsome])
        exact (usageLines_eq_none_iff hw).1 heq.symm hsome
      · obtain ⟨last, hleads⟩ := hsome
        refine iff_of_true ?_ (by simp [hpasses])
        exact usageLines_eq_of_remove hr hu hleads
          ((Tree.leads_iff_of_remove hw hr).2 ⟨hleads, hpasses⟩)
    · rw [hnone path fun hafter => hsome ((hresolves path).1 hafter).1]
      exact iff_of_true ((usageLines_eq_none_iff hw).2 hsome).symm (by simp [hsome])
  · exact hnone path fun hafter => ((hresolves path).1 hafter).2 hpasses

/-- A literal for administrators with another literal below it. -/
def adminWithReset : Except Violation (Dispatcher Unit) := do
  let reset ← (literal "reset").executes ()
  let admin ← (literal "admin").child reset.toSpec
  let (d, _) ← ({} : Dispatcher Unit).register (admin.requires knowsAdmin)
  return d

theorem reachable_of_adminWithReset {d : Dispatcher Unit} (h : adminWithReset = .ok d) :
    d.Reachable := by
  obtain ⟨reset, hreset, h⟩ := exists_of_bind_eq_ok h
  obtain ⟨admin, hadmin, h⟩ := exists_of_bind_eq_ok h
  obtain ⟨⟨d₁, _⟩, h₁, h⟩ := exists_of_bind_eq_ok h
  cases h
  have hreset := Spec.Drafted.command ((CommandDraft.Drafted.literal "reset").executes hreset)
  have hadmin := ((CommandDraft.Drafted.literal "admin").child hreset hadmin).requires knowsAdmin
  exact (Reachable.start {}).register hadmin h₁

/-- In it everything is hidden from everybody else, and yet its names lead somewhere. -/
theorem exists_adminWithReset :
    ∃ d : Dispatcher Unit, adminWithReset = .ok d ∧ d.Reachable ∧
      d.tree.child? Tree.root "admin" = .ok (some 1) ∧ d.tree.canUse 1 .empty = .ok false ∧
      d.tree.Passes Tree.root ["admin"] 1 ∧ d.tree.Resolves Tree.root ["admin"] := by
  have hrun : adminWithReset.map (fun d =>
      (d.tree.child? Tree.root "admin", d.tree.canUse 1 .empty)) =
        .ok (.ok (some 1), .ok false) := by
    cbv
  obtain ⟨d, h, hd⟩ := exists_of_map_eq_ok hrun
  obtain ⟨hchild, hu⟩ := Prod.mk.inj hd
  have hleads := Tree.leads_singleton_iff.2 hchild
  exact ⟨d, h, reachable_of_adminWithReset h, hchild, hu, ⟨["admin"], by simp, by simp, hleads⟩,
    ⟨1, hleads⟩⟩

/-- Nothing is said about the hidden literal where all commands are listed. -/
theorem usageLines_eq_iff_of_remove_hidden_adminWithReset :
    ∃ (d : Dispatcher Unit) (tree' : Tree Unit), adminWithReset = .ok d ∧ d.tree.Reachable ∧
      d.tree.child? Tree.root "admin" = .ok (some 1) ∧ d.tree.canUse 1 .empty = .ok false ∧
      d.tree.remove Tree.root "admin" = .ok (tree', some 1) ∧
      ({ d with tree := tree' } : Dispatcher Unit).usageLines .empty [] =
        d.usageLines .empty [] ∧
      ({ d with tree := tree' } : Dispatcher Unit).usageLines .empty ["admin"] ≠
        d.usageLines .empty ["admin"] := by
  obtain ⟨d, h, hreach, hchild, hu, hpasses, hresolves⟩ := exists_adminWithReset
  obtain ⟨tree', hr, hpaths⟩ := usageLines_eq_iff_of_remove_hidden hreach.tree hchild hu
  exact ⟨d, tree', h, hreach.tree, hchild, hu, hr,
    (hpaths []).1.2 fun hall => Tree.not_passes_nil hall.1,
    fun heq => (hpaths ["admin"]).1.1 heq ⟨hpasses, hresolves⟩⟩

/-- **Who knows the name of a hidden literal is told what is below it.** -/
theorem exists_hidden_with_usageLines :
    ∃ (d : Dispatcher Unit) (tree' : Tree Unit), adminWithReset = .ok d ∧ d.Reachable ∧
      d.tree.canUse 1 .empty = .ok false ∧ d.tree.Passes Tree.root ["admin"] 1 ∧
      d.tree.remove Tree.root "admin" = .ok (tree', some 1) ∧
      d.usageLines .empty ["admin"] = .ok (some ["admin reset"]) ∧
      ({ d with tree := tree' } : Dispatcher Unit).usageLines .empty ["admin"] = .ok none := by
  obtain ⟨d, h, hreach, -, hu, hpasses, -⟩ := exists_adminWithReset
  have hrun : adminWithReset.map (fun d => (d.usageLines .empty ["admin"],
      (d.tree.remove Tree.root "admin").map fun removed =>
        (removed.2, ({ d with tree := removed.1 } : Dispatcher Unit).usageLines .empty ["admin"]))) =
          .ok (.ok (some ["admin reset"]), .ok (some 1, .ok none)) := by
    cbv
  rw [h] at hrun
  obtain ⟨hlines, hremove⟩ := Prod.mk.inj (Except.ok.inj hrun)
  obtain ⟨⟨tree', id?⟩, hr, hd⟩ := exists_of_map_eq_ok hremove
  obtain ⟨rfl, hnone⟩ := Prod.mk.inj hd
  exact ⟨d, tree', h, hreach, hu, hpasses, hr, hlines, hnone⟩

end Dispatcher

end CommandGrammar
