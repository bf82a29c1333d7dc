import CommandGrammar.Proofs.Grammar.Index
import Mathlib.Data.List.Induction

/-!
# Where names lead

Every child of a node has a name, so names one after the other lead from a node to one below it, or
nowhere (`Tree.Leads`, `Tree.Resolves`). Redirects have no part in this: names follow children only.

Main statements: names lead to one node at most, and in a well-formed grammar only one sequence of
names leads from a node to another (`Tree.Leads.path_eq`). A node that absorbs a symbol changes
nothing (`Tree.leads_modify_symbol`), and a new node is led to by the names that lead to its parent
and its own, and is in nobody's way (`Tree.leads_insert_iff`).
-/

namespace CommandGrammar

variable {κ : Type}

namespace Tree

variable {tree : Tree κ} {start parent id other : NodeId} {owner : Node κ} {name : String}
  {path others : List String}

/-- Names, the first one first, lead from a node to another one. -/
def Leads (tree : Tree κ) (start : NodeId) (path : List String) (id : NodeId) : Prop :=
  tree.findFrom? start path = .ok (some id)

/-- Names lead from a node to some node. -/
def Resolves (tree : Tree κ) (start : NodeId) (path : List String) : Prop :=
  ∃ id, tree.Leads start path id

instance (tree : Tree κ) (start : NodeId) (path : List String) :
    Decidable (tree.Resolves start path) :=
  match h : tree.findFrom? start path with
  | .ok (some id) => .isTrue ⟨id, h⟩
  | .ok none => .isFalse fun ⟨_, h'⟩ => nomatch h.symm.trans h'
  | .error _ => .isFalse fun ⟨_, h'⟩ => nomatch h.symm.trans h'

/-- Names lead to one node at most. -/
theorem Leads.id_eq (h : tree.Leads start path id) (h' : tree.Leads start path other) :
    id = other :=
  Option.some.inj (Except.ok.inj (h.symm.trans h'))

/-! ### One name more -/

theorem child?_eq_ok_some_iff :
    tree.child? parent name = .ok (some id) ↔
      ∃ owner, tree.node? parent = some owner ∧ owner.children.byName.find? name = some id := by
  unfold child?
  constructor
  · intro h
    obtain ⟨owner, ho, hid⟩ := exists_of_map_eq_ok h
    exact ⟨owner, node_eq_ok.1 ho, hid⟩
  · rintro ⟨owner, ho, hid⟩
    rw [node_eq_ok.2 ho, ← hid]
    rfl

theorem leads_nil_iff : tree.Leads start [] id ↔ id = start := by
  unfold Leads
  rw [findFrom?, Except.ok.injEq, Option.some.injEq]
  exact eq_comm

theorem leads_cons_iff :
    tree.Leads start (name :: path) id ↔
      ∃ next, tree.child? start name = .ok (some next) ∧ tree.Leads next path id := by
  unfold Leads
  rw [findFrom?]
  rcases tree.child? start name with violation | _ | next <;> simp

theorem leads_singleton_iff :
    tree.Leads start [name] id ↔ tree.child? start name = .ok (some id) := by
  simp [leads_cons_iff, leads_nil_iff]

/-- The last name leads to a child of the node to which the others lead. -/
theorem leads_append_singleton_iff :
    tree.Leads start (path ++ [name]) id ↔
      ∃ parent owner, tree.Leads start path parent ∧ tree.node? parent = some owner ∧
        owner.children.byName.find? name = some id := by
  induction path generalizing start with
  | nil => simp [leads_singleton_iff, leads_nil_iff, child?_eq_ok_some_iff]
  | cons first path ih =>
    simp only [List.cons_append, leads_cons_iff, ih]
    constructor
    · rintro ⟨next, hnext, parent, owner, hp, ho, hid⟩
      exact ⟨parent, owner, ⟨next, hnext, hp⟩, ho, hid⟩
    · rintro ⟨parent, owner, ⟨next, hnext, hp⟩, ho, hid⟩
      exact ⟨next, hnext, parent, owner, hp, ho, hid⟩

/-- A name that no child has leads nowhere. -/
theorem not_resolves_of_fresh (hp : tree.Leads start path parent)
    (ho : tree.node? parent = some owner) (hf : owner.children.byName.find? name = none) :
    ¬ tree.Resolves start (path ++ [name]) := by
  rintro ⟨id, hid⟩
  obtain ⟨parent', owner', hp', ho', hid⟩ := leads_append_singleton_iff.1 hid
  obtain rfl := hp.id_eq hp'
  obtain rfl := Option.some.inj (ho.symm.trans ho')
  rw [hf] at hid
  cases hid

/-! ### Names and nodes -/

theorem WellFormed.isChild_of_byName (hw : tree.WellFormed) (ho : tree.node? parent = some owner)
    (hid : owner.children.byName.find? name = some id) :
    tree.IsChild parent id ∧ tree.name? id = some name := by
  obtain ⟨hm, hname⟩ := ((hw.indexed parent owner ho).byName name id).1 hid
  exact ⟨⟨owner, ho, hm⟩, hname⟩

/-- A child that absorbs a symbol stands for something before and afterwards: the root is not merged
with anything. -/
theorem WellFormed.exists_of_absorb {tree' : Tree κ} {incoming : Symbol κ} (hw : tree.WellFormed)
    (ho : tree.node? parent = some owner) (hid : owner.children.byName.find? name = some id)
    (h : tree.absorb id incoming = .ok tree') :
    ∃ node symbol result, tree.node? id = some node ∧ node.symbol? = some symbol ∧
      symbol.absorb (!node.children.order.isEmpty) incoming = .ok result ∧
      tree' = tree.modify id fun node => { node with symbol? := some result } := by
  obtain ⟨node, hn, ⟨hnone, -⟩ | ⟨symbol, result, hs, hr, rfl⟩⟩ := absorb_eq_ok h
  · have hname := (hw.isChild_of_byName ho hid).2
    rw [name?, kind?, symbol?_of_node? hn, hnone] at hname
    cases hname
  · exact ⟨node, symbol, result, hn, hs, hr, rfl⟩

/-- Every child has a name, which leads to it. -/
theorem WellFormed.exists_child?_of_isChild (hw : tree.WellFormed) (hc : tree.IsChild parent id) :
    ∃ name, tree.child? parent name = .ok (some id) := by
  obtain ⟨hlt, hsize⟩ := hw.bounds_of_isChild hc
  have hkind : tree.kind? id ≠ none := by
    rw [ne_eq, hw.kinds id hsize]
    exact Nat.ne_of_gt (Nat.lt_of_le_of_lt (Nat.zero_le parent) hlt)
  obtain ⟨kind, hk⟩ := Option.ne_none_iff_exists'.1 hkind
  obtain ⟨owner, ho, hm⟩ := hc
  have hid := ((hw.indexed parent owner ho).byName kind.name id).2 ⟨hm, by rw [name?, hk]; rfl⟩
  exact ⟨kind.name, child?_eq_ok_some_iff.2 ⟨owner, ho, hid⟩⟩

/-- Names lead further down only. -/
theorem Leads.le (hw : tree.WellFormed) (h : tree.Leads start path id) : start ≤ id := by
  induction path using List.reverseRecOn generalizing id with
  | nil => exact Nat.le_of_eq (leads_nil_iff.1 h).symm
  | append_singleton path name ih =>
    obtain ⟨parent, owner, hp, ho, hid⟩ := leads_append_singleton_iff.1 h
    have hlt := (hw.bounds_of_isChild (hw.isChild_of_byName ho hid).1).1
    exact Nat.le_trans (ih hp) (Nat.le_of_lt hlt)

theorem Leads.lt (hw : tree.WellFormed) (h : tree.Leads start path id) (hne : path ≠ []) :
    start < id := by
  obtain ⟨front, name, rfl⟩ := (List.eq_nil_or_concat' path).resolve_left hne
  obtain ⟨parent, owner, hp, ho, hid⟩ := leads_append_singleton_iff.1 h
  exact Nat.lt_of_le_of_lt (hp.le hw) (hw.bounds_of_isChild (hw.isChild_of_byName ho hid).1).1

/-- Behind one name at least there is a node. -/
theorem Leads.exists_node? (hw : tree.WellFormed) (h : tree.Leads start path id) (hne : path ≠ []) :
    ∃ node, tree.node? id = some node := by
  obtain ⟨front, name, rfl⟩ := (List.eq_nil_or_concat' path).resolve_left hne
  obtain ⟨parent, owner, hp, ho, hid⟩ := leads_append_singleton_iff.1 h
  exact exists_node?_of_lt_size (hw.bounds_of_isChild (hw.isChild_of_byName ho hid).1).2

/-- Only one sequence of names leads from a node to another. -/
theorem Leads.path_eq (hw : tree.WellFormed) (h : tree.Leads start path id)
    (h' : tree.Leads start others id) : path = others := by
  induction path using List.reverseRecOn generalizing id others with
  | nil =>
    by_contra hne
    have hlt := h'.lt hw (Ne.symm hne)
    exact Nat.ne_of_gt hlt (leads_nil_iff.1 h)
  | append_singleton path name ih =>
    have hne : others ≠ [] := by
      rintro rfl
      exact Nat.ne_of_gt (h.lt hw (by simp)) (leads_nil_iff.1 h')
    obtain ⟨front, last, rfl⟩ := (List.eq_nil_or_concat' others).resolve_left hne
    obtain ⟨parent, owner, hp, ho, hid⟩ := leads_append_singleton_iff.1 h
    obtain ⟨parent', owner', hp', ho', hid'⟩ := leads_append_singleton_iff.1 h'
    obtain ⟨hc, hname⟩ := hw.isChild_of_byName ho hid
    obtain ⟨hc', hname'⟩ := hw.isChild_of_byName ho' hid'
    obtain rfl := hw.parent_unique _ _ _ hc hc'
    rw [ih hp hp', Option.some.inj (hname.symm.trans hname')]

/-! ### Names through the changes -/

/-- What a node stands for does not matter for where names lead. -/
theorem leads_modify_symbol {symbol : Symbol κ} :
    (tree.modify other fun node => { node with symbol? := some symbol }).Leads start path id ↔
      tree.Leads start path id := by
  induction path using List.reverseRecOn generalizing id with
  | nil => rw [leads_nil_iff, leads_nil_iff]
  | append_singleton path name ih =>
    simp only [leads_append_singleton_iff, ih]
    constructor
    · rintro ⟨parent, owner, hp, ho, hid⟩
      obtain ⟨rfl, old, hold, rfl⟩ | ⟨-, ho⟩ := node?_modify_eq_some ho
      · exact ⟨parent, old, hp, hold, hid⟩
      · exact ⟨parent, owner, hp, ho, hid⟩
    · rintro ⟨parent, owner, hp, ho, hid⟩
      have hnode := node?_modify tree other parent fun node => { node with symbol? := some symbol }
      rw [ho] at hnode
      split at hnode
      · exact ⟨parent, _, hp, hnode, hid⟩
      · exact ⟨parent, _, hp, hnode, hid⟩

section Insert

variable {symbol : Symbol κ} {requirement : Option Requirement}
  (ho : tree.node? parent = some owner) (hf : owner.children.byName.find? symbol.name = none)

include ho in
/-- The children by name after an insertion are those of before and the new one. -/
theorem byName_insert_cases {node : Node κ}
    (hn : (tree.insert parent symbol requirement).node? other = some node)
    (hid : node.children.byName.find? name = some id) :
    (∃ old, tree.node? other = some old ∧ old.children.byName.find? name = some id) ∨
      other = parent ∧ name = symbol.name ∧ id = tree.size := by
  obtain ⟨-, rfl⟩ | ⟨rfl, rfl⟩ | hold := node?_insert_eq_some ho hn
  · cases hid
  · rw [Children.byName_insert, Table.find?_insert] at hid
    split at hid
    · rename_i e
      exact .inr ⟨rfl, e.symm, (Option.some.inj hid).symm⟩
    · exact .inl ⟨owner, ho, hid⟩
  · exact .inl ⟨node, hold, hid⟩

include ho hf in
/-- A child of before is still there under its name. -/
theorem exists_byName_insert (requirement : Option Requirement) {old : Node κ}
    (hold : tree.node? other = some old) (hid : old.children.byName.find? name = some id) :
    ∃ node, (tree.insert parent symbol requirement).node? other = some node ∧
      node.children.byName.find? name = some id := by
  have hnode := node?_insert (lt_size_of_node? ho) symbol requirement other
  rw [if_neg (Nat.ne_of_lt (lt_size_of_node? hold)), hold] at hnode
  split at hnode
  · rename_i e
    subst e
    obtain rfl := Option.some.inj (ho.symm.trans hold)
    refine ⟨_, hnode, ?_⟩
    rw [Children.byName_insert, Table.find?_insert, if_neg, hid]
    rintro rfl
    rw [hf] at hid
    cases hid
  · exact ⟨old, hnode, hid⟩

include ho in
/-- The new child is there under its name. -/
theorem exists_byName_insert_self (symbol : Symbol κ) (requirement : Option Requirement) :
    ∃ node, (tree.insert parent symbol requirement).node? parent = some node ∧
      node.children.byName.find? symbol.name = some tree.size := by
  have hlt := lt_size_of_node? ho
  have hnode := node?_insert hlt symbol requirement parent
  rw [if_neg (Nat.ne_of_lt hlt), if_pos rfl, ho, Option.map_some] at hnode
  refine ⟨_, hnode, ?_⟩
  rw [Children.byName_insert, Table.find?_insert, if_pos rfl]

include ho hf in
/-- **After an insertion names lead where they led before**, and those of the parent together with
that of the new node lead to it. -/
theorem leads_insert_iff :
    (tree.insert parent symbol requirement).Leads start path id ↔
      tree.Leads start path id ∨
        ∃ front, tree.Leads start front parent ∧ path = front ++ [symbol.name] ∧ id = tree.size := by
  induction path using List.reverseRecOn generalizing id with
  | nil => simp [leads_nil_iff]
  | append_singleton path name ih =>
    simp only [leads_append_singleton_iff, ih]
    constructor
    · rintro ⟨above, node, habove, hn, hid⟩
      -- the new node has no children, so names do not lead on from there
      have hold : tree.Leads start path above := by
        rcases habove with habove | ⟨-, -, -, rfl⟩
        · exact habove
        · rw [node?_insert (lt_size_of_node? ho), if_pos rfl] at hn
          obtain rfl := Option.some.inj hn
          cases hid
      rcases byName_insert_cases ho hn hid with ⟨old, hn, hid⟩ | ⟨rfl, rfl, rfl⟩
      · exact .inl ⟨above, old, hold, hn, hid⟩
      · exact .inr ⟨path, hold, rfl, rfl⟩
    · rintro (⟨above, old, habove, hn, hid⟩ | ⟨front, hfront, e, rfl⟩)
      · obtain ⟨node, hn, hid⟩ := exists_byName_insert ho hf requirement hn hid
        exact ⟨above, node, .inl habove, hn, hid⟩
      · obtain ⟨rfl, rfl⟩ := List.append_singleton_inj.1 e
        obtain ⟨node, hn, hid⟩ := exists_byName_insert_self ho symbol requirement
        exact ⟨parent, node, .inl hfront, hn, hid⟩

end Insert

end Tree

end CommandGrammar
