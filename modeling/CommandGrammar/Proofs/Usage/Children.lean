import CommandGrammar.Proofs.Grammar.Index

/-!
# The children that may be used

Listing those of some nodes that may be used fails only at a place without a node. This module says
what is listed where it does not.

Main statements: which nodes are listed, and when there is a list at all
(`Tree.usable_eq_ok_iff`), and that in a well-formed grammar those children of a node are listed that
may be used (`Tree.usable_eq_ok`).
-/

namespace CommandGrammar

variable {κ : Type}

namespace Tree

variable {tree : Tree κ} {context : Context} {id next : NodeId} {node nextNode : Node κ}

/-- The children of a node that may be used, in the order of insertion. -/
def usableChildren (tree : Tree κ) (context : Context) (node : Node κ) : List (NodeId × Node κ) :=
  node.children.order.filterMap fun id =>
    ((tree.node? id).filter (·.canUse context)).map (Prod.mk id)

theorem mem_usableChildren_iff :
    (next, nextNode) ∈ tree.usableChildren context node ↔
      next ∈ node.children.order ∧ tree.node? next = some nextNode ∧
        nextNode.canUse context = true := by
  simp [usableChildren, Option.map_eq_some_iff, Option.filter_eq_some_iff]

/-- Those of some nodes that may be used can be listed just if there is a node at each place. -/
theorem usable_eq_ok_iff {ids : List NodeId} {nodes : List (NodeId × Node κ)} :
    tree.usable context ids = .ok nodes ↔
      (∀ id ∈ ids, id < tree.size) ∧
        (ids.filterMap fun id =>
          ((tree.node? id).filter (·.canUse context)).map (Prod.mk id)) = nodes := by
  induction ids generalizing nodes with
  | nil => simp [usable]
  | cons id ids ih =>
    rw [List.forall_mem_cons, and_assoc]
    constructor
    · intro h
      obtain ⟨node, hn, h⟩ := exists_of_bind_eq_ok h
      obtain ⟨others, hothers, h⟩ := exists_of_bind_eq_ok h
      obtain rfl := Except.ok.inj h
      obtain ⟨hids, rfl⟩ := ih.1 hothers
      have hn := node_eq_ok.1 hn
      refine ⟨lt_size_of_node? hn, hids, ?_⟩
      cases hu : node.canUse context <;> simp [hn, hu]
    · rintro ⟨hid, hids, rfl⟩
      obtain ⟨node, hn⟩ := exists_node?_of_lt_size hid
      rw [usable, node_eq_ok.2 hn, ih.2 ⟨hids, rfl⟩]
      cases hu : node.canUse context <;>
        simp [bind, Except.bind, pure, Except.pure, hn, hu]

/-- Those of some nodes that may be used are listed in their order. -/
theorem map_fst_of_usable {ids : List NodeId} {nodes : List (NodeId × Node κ)}
    (h : tree.usable context ids = .ok nodes) :
    nodes.map Prod.fst = ids.filter fun id => (tree.node? id).any (·.canUse context) := by
  obtain ⟨-, rfl⟩ := usable_eq_ok_iff.1 h
  clear h
  induction ids with
  | nil => rfl
  | cons id ids ih =>
    cases hn : tree.node? id with
    | none => simp [hn, ih]
    | some node => cases hu : node.canUse context <;> simp [hn, hu, ih]

theorem usable_eq_ok (hw : tree.WellFormed) (hn : tree.node? id = some node) :
    tree.usable context node.children.order = .ok (tree.usableChildren context node) :=
  usable_eq_ok_iff.2 ⟨fun _ hm => (hw.bounds_of_isChild ⟨node, hn, hm⟩).2, rfl⟩

end Tree

end CommandGrammar
