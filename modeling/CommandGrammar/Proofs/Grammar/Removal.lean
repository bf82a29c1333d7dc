import CommandGrammar.Proofs.Grammar.Names
import CommandGrammar.Proofs.Grammar.Redirect

/-!
# Grammars from which a child was taken away

A removal changes one node, the parent, which forgets a child. All nodes stay where they are
(`Tree.SameBut`), and none becomes another one: what a node stands for and its requirement have
nothing to do with its children.

Main statements: `Tree.exists_of_remove` says what a removal has done, and `Tree.leads_iff_of_remove`
where names still lead: where they led before, unless they went by way of the child.
-/

namespace CommandGrammar

variable {κ : Type}

namespace Tree

variable {tree tree' : Tree κ} {start parent place id other last : NodeId} {owner : Node κ}
  {name step : String} {path : List String}

/-- Two grammars have the same nodes, but for those at one place. -/
structure SameBut (tree tree' : Tree κ) (place : NodeId) : Prop where
  /-- There are as many nodes. -/
  size : tree'.size = tree.size
  /-- At every other place there is the same node. -/
  node? : ∀ id, id ≠ place → tree'.node? id = tree.node? id

theorem SameBut.node_eq (h : tree.SameBut tree' place) (hid : id ≠ place) :
    tree'.node id = tree.node id := by
  rw [Tree.node, Tree.node, h.node? id hid, h.size]

theorem exists_remove_of_child (h : tree.child? parent name = .ok (some id)) :
    ∃ tree', tree.remove parent name = .ok (tree', some id) := by
  rw [remove, h]
  exact ⟨_, rfl⟩

/-- **A removal takes a child away from its parent**, and touches no other node. -/
theorem exists_of_remove (h : tree.remove parent name = .ok (tree', some id)) :
    ∃ owner, tree.node? parent = some owner ∧ owner.children.byName.find? name = some id ∧
      tree'.node? parent = some { owner with children := owner.children.erase name id } ∧
      tree.SameBut tree' parent := by
  obtain ⟨owner, ho, hid, ⟨hnone, -⟩ | ⟨_, hsome, rfl⟩⟩ := remove_eq_ok h
  · cases hnone
  · obtain rfl := Option.some.inj hsome
    refine ⟨owner, ho, hid, ?_, size_modify .., fun other hother => ?_⟩
    · rw [node?_modify, if_pos rfl, ho, Option.map_some]
    · rw [node?_modify, if_neg (Ne.symm hother)]

/-- A node after a removal is the one of before, with the same children or fewer. -/
theorem exists_node?_of_remove (h : tree.remove parent name = .ok (tree', some id))
    {node : Node κ} (hn : tree.node? other = some node) :
    ∃ children, tree'.node? other = some { node with children } ∧
      ((other ≠ parent ∧ children = node.children) ∨
        (other = parent ∧ children = node.children.erase name id)) := by
  obtain ⟨owner, ho, -, ho', hsame⟩ := exists_of_remove h
  by_cases hother : other = parent
  · subst hother
    obtain rfl := Option.some.inj (ho.symm.trans hn)
    exact ⟨_, ho', .inr ⟨rfl, rfl⟩⟩
  · exact ⟨_, (hsame.node? other hother).trans hn, .inl ⟨hother, rfl⟩⟩

/-! ### Names -/

/-- Every name leads to the child to which it led before, but for the one that was taken away. -/
theorem child?_eq_ok_some_iff_of_remove (hw : tree.WellFormed)
    (h : tree.remove parent name = .ok (tree', some id)) {child : NodeId} :
    tree'.child? other step = .ok (some child) ↔
      tree.child? other step = .ok (some child) ∧ child ≠ id := by
  obtain ⟨owner, ho, hid, ho', hsame⟩ := exists_of_remove h
  have hremoved := hw.isChild_of_byName ho hid
  rw [child?_eq_ok_some_iff, child?_eq_ok_some_iff]
  by_cases hother : other = parent
  · subst hother
    rw [ho, ho']
    simp only [Option.some.injEq, exists_eq_left', Children.erase, Table.find?_erase]
    split
    · rename_i e
      subst e
      rw [hid]
      simp [eq_comm]
    · rename_i e
      refine ⟨fun hchild => ⟨hchild, ?_⟩, fun hchild => hchild.1⟩
      rintro rfl
      exact e (Option.some.inj (hremoved.2.symm.trans (hw.isChild_of_byName ho hchild).2))
  · rw [hsame.node? other hother]
    refine ⟨fun hchild => ⟨hchild, ?_⟩, fun hchild => hchild.1⟩
    obtain ⟨node, hn, hchild⟩ := hchild
    rintro rfl
    exact hother (hw.parent_unique _ _ _ (hw.isChild_of_byName hn hchild).1 hremoved.1)

/-- Names that lead from a node to another one pass a node on the way, the last one included. -/
def Passes (tree : Tree κ) (start : NodeId) (path : List String) (id : NodeId) : Prop :=
  ∃ front, front ≠ [] ∧ front <+: path ∧ tree.Leads start front id

theorem not_passes_nil : ¬ tree.Passes start [] id := by
  rintro ⟨front, hne, hprefix, -⟩
  exact hne (List.prefix_nil.1 hprefix)

/-- The first name leads to the node, or the others pass it from where the first one leads. -/
theorem passes_cons_iff {child : NodeId} (hchild : tree.child? start step = .ok (some child)) :
    tree.Passes start (step :: path) id ↔ child = id ∨ tree.Passes child path id := by
  constructor
  · rintro ⟨front, hne, hprefix, hleads⟩
    obtain ⟨first, front, rfl⟩ := List.exists_cons_of_ne_nil hne
    obtain ⟨rfl, hfront⟩ := List.cons_prefix_cons.1 hprefix
    obtain ⟨next, hnext, hleads⟩ := leads_cons_iff.1 hleads
    obtain rfl := Option.some.inj (Except.ok.inj (hchild.symm.trans hnext))
    by_cases hnil : front = []
    · subst hnil
      exact .inl (leads_nil_iff.1 hleads).symm
    · exact .inr ⟨front, hnil, hfront, hleads⟩
  · rintro (rfl | ⟨front, -, hprefix, hleads⟩)
    · exact ⟨[step], by simp, by simp, leads_singleton_iff.2 hchild⟩
    · exact ⟨step :: front, by simp, List.cons_prefix_cons.2 ⟨rfl, hprefix⟩,
        leads_cons_iff.2 ⟨child, hchild, hleads⟩⟩

/-- **After a removal names lead where they led before, unless they pass the child.** -/
theorem leads_iff_of_remove (hw : tree.WellFormed)
    (h : tree.remove parent name = .ok (tree', some id)) :
    tree'.Leads start path last ↔ tree.Leads start path last ∧ ¬ tree.Passes start path id := by
  induction path generalizing start with
  | nil => simp [leads_nil_iff, not_passes_nil]
  | cons first path ih =>
    simp only [leads_cons_iff, ih, child?_eq_ok_some_iff_of_remove hw h]
    constructor
    · rintro ⟨next, ⟨hnext, hne⟩, hleads, hpasses⟩
      refine ⟨⟨next, hnext, hleads⟩, fun hcons => ?_⟩
      exact ((passes_cons_iff hnext).1 hcons).elim hne hpasses
    · rintro ⟨⟨next, hnext, hleads⟩, hpasses⟩
      rw [passes_cons_iff hnext, not_or] at hpasses
      exact ⟨next, ⟨hnext, hpasses.1⟩, hleads, hpasses.2⟩

end Tree

end CommandGrammar
