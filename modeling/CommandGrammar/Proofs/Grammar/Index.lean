import CommandGrammar.Proofs.Grammar.Change
import Mathlib.Data.List.Nodup

/-!
# The indexes of a grammar

A node keeps its children five times: in order, by name, and with literals, arguments and flags
apart. This module says when the five agree with each other and with the nodes they refer to
(`Tree.Indexed`), and when the children of all nodes together form a forest (`Tree.WellFormed`):
every child comes later in the array than its parent, and has no other parent.

Main statement: every grammar that can be built is well formed, and so its children never run in
circles, wherever its redirects lead (`Tree.wellFormed_and_acyclic_of_reachable`). The proof takes
the elementary changes one by one. A removed node stays in the array with its own children, and more
can be added below it, so the invariant speaks of all nodes and not only of those below the root.
-/

namespace CommandGrammar

open Relation

variable {κ : Type}

/-! ### Kinds -/

/-- What a node matches, whatever becomes of a line that ends there. -/
inductive Kind where
  /-- A token of exactly this text. -/
  | literal (name : String)
  /-- A value. -/
  | argument (a : Argument)
  /-- A flag. -/
  | flag (c : Char)

namespace Kind

/-- The name of a node among its siblings. -/
def name : Kind → String
  | literal name => name
  | argument a => a.name
  | flag c => String.ofList ['-', c]

/-- Whether a node is a literal. -/
def isLiteral : Kind → Bool
  | literal _ => true
  | _ => false

/-- Whether a node is an argument. -/
def isArgument : Kind → Bool
  | argument _ => true
  | _ => false

/-- Whether a node is a flag. -/
def isFlag : Kind → Bool
  | flag _ => true
  | _ => false

end Kind

/-- The kind of a node that a symbol is for. -/
def Symbol.kind : Symbol κ → Kind
  | piece (.literal name) _ => .literal name
  | piece (.argument a) _ => .argument a
  | flag c => .flag c

@[simp] theorem Symbol.name_kind (symbol : Symbol κ) : symbol.kind.name = symbol.name := by
  rcases symbol with ⟨_ | _, _⟩ | _ <;> rfl

/-- A node stays what it is when it absorbs another symbol. -/
theorem Symbol.kind_of_absorb {symbol incoming result : Symbol κ} {hasChildren : Bool}
    (h : symbol.absorb hasChildren incoming = .ok result) : result.kind = symbol.kind := by
  cases symbol with
  | flag c =>
    cases h
    rfl
  | piece p ending =>
    cases incoming with
    | flag c =>
      cases h
      rfl
    | piece q other =>
      simp only [absorb] at h
      cases ha : ending.absorb hasChildren other with
      | error violation =>
        rw [ha] at h
        cases h
      | ok absorbed =>
        rw [ha] at h
        cases h
        cases p <;> rfl

namespace Children

variable (children : Children) (symbol : Symbol κ) (id : NodeId)

theorem order_insert : (children.insert symbol id).order = children.order ++ [id] := by
  rcases symbol with ⟨_ | _, _⟩ | _ <;> rfl

theorem byName_insert :
    (children.insert symbol id).byName = children.byName.insert symbol.name id := by
  rcases symbol with ⟨_ | _, _⟩ | _ <;> rfl

theorem literals_insert : (children.insert symbol id).literals =
    if symbol.kind.isLiteral then children.literals.insert symbol.name id
    else children.literals := by
  rcases symbol with ⟨_ | _, _⟩ | _ <;> rfl

theorem arguments_insert : (children.insert symbol id).arguments =
    if symbol.kind.isArgument then children.arguments ++ [id] else children.arguments := by
  rcases symbol with ⟨_ | _, _⟩ | _ <;> rfl

theorem flags_insert : (children.insert symbol id).flags =
    if symbol.kind.isFlag then children.flags ++ [id] else children.flags := by
  rcases symbol with ⟨_ | _, _⟩ | _ <;> rfl

end Children

namespace Tree

/-- The kind of the node at a place; there is none for the root. -/
def kind? (tree : Tree κ) (id : NodeId) : Option Kind := (tree.symbol? id).map Symbol.kind

/-- Whether there is a node of some kind at a place. -/
def hasKind (tree : Tree κ) (p : Kind → Bool) (id : NodeId) : Bool := (tree.kind? id).any p

/-- The name of the node at a place; there is none for the root. -/
def name? (tree : Tree κ) (id : NodeId) : Option String := (tree.kind? id).map Kind.name

/-- A node lies directly below another one. -/
def IsChild (tree : Tree κ) (parent child : NodeId) : Prop :=
  ∃ node, tree.node? parent = some node ∧ child ∈ node.children.order

theorem kind?_modify_children (tree : Tree κ) (id other : NodeId) (f : Children → Children) :
    (tree.modify id fun node => { node with children := f node.children }).kind? other =
      tree.kind? other := by
  rw [kind?, symbol?_modify_children]
  rfl

theorem kind?_modify_symbol {tree : Tree κ} {id : NodeId} {node : Node κ}
    {symbol result : Symbol κ} (hn : tree.node? id = some node) (hs : node.symbol? = some symbol)
    (hk : result.kind = symbol.kind) (other : NodeId) :
    (tree.modify id fun node => { node with symbol? := some result }).kind? other =
      tree.kind? other := by
  rw [kind?, symbol?_modify_symbol tree (lt_size_of_node? hn)]
  split
  · rename_i e
    subst e
    rw [kind?, symbol?_of_node? hn, hs, Option.map_some, Option.map_some, hk]
  · rfl

theorem kind?_insert {tree : Tree κ} {parent : NodeId} (hp : parent < tree.size)
    (symbol : Symbol κ) (requirement : Option Requirement) (other : NodeId) :
    (tree.insert parent symbol requirement).kind? other =
      if other = tree.size then some symbol.kind else tree.kind? other := by
  rw [kind?, symbol?_insert hp]
  split <;> rfl

/-- **A node never changes its kind.** -/
theorem Change.kind?_eq {tree tree' : Tree κ} (h : Change tree tree') {id : NodeId}
    (hid : id < tree.size) : tree'.kind? id = tree.kind? id := by
  cases h with
  | insert ho _ _ _ =>
    rw [kind?_insert (lt_size_of_node? ho), if_neg (Nat.ne_of_lt hid)]
  | absorb _ _ hn hs hr =>
    exact kind?_modify_symbol hn hs (Symbol.kind_of_absorb hr) id
  | @erase parent child owner name ho hn =>
    exact kind?_modify_children tree parent id fun children => children.erase name child

/-! ### The children of one node -/

/-- The indexes of the children of the node at a place agree with each other and with the nodes they
refer to. -/
structure Indexed (tree : Tree κ) (id : NodeId) (children : Children) : Prop where
  /-- No child occurs twice. -/
  nodup : children.order.Nodup
  /-- The names of the children, and no others, lead to them. -/
  byName : ∀ name child, children.byName.find? name = some child ↔
    child ∈ children.order ∧ tree.name? child = some name
  /-- So do the names of the literals among them. -/
  literals : ∀ name child, children.literals.find? name = some child ↔
    children.byName.find? name = some child ∧ tree.hasKind Kind.isLiteral child = true
  /-- The arguments are the children of that kind, in their order. -/
  arguments : children.arguments = children.order.filter (tree.hasKind Kind.isArgument)
  /-- The flags are the children of that kind, in their order. -/
  flags : children.flags = children.order.filter (tree.hasKind Kind.isFlag)
  /-- Every child is in the array, and comes later than its parent. -/
  bounds : ∀ child ∈ children.order, id < child ∧ child < tree.size

namespace Indexed

variable {tree tree' : Tree κ} {id child : NodeId} {node : Node κ} {children : Children}

theorem empty (tree : Tree κ) (id : NodeId) : tree.Indexed id {} where
  nodup := List.nodup_nil
  byName name child := by simp
  literals name child := by simp
  arguments := rfl
  flags := rfl
  bounds child h := by simp at h

/-- Only the kinds of the children matter. -/
theorem congr (h : tree.Indexed id children) (hsize : tree.size ≤ tree'.size)
    (hkind : ∀ other < tree.size, tree'.kind? other = tree.kind? other) :
    tree'.Indexed id children := by
  have hk : ∀ other ∈ children.order, tree'.kind? other = tree.kind? other :=
    fun other ho => hkind other (h.bounds other ho).2
  refine ⟨h.nodup, fun name other => ?_, fun name other => ?_, ?_, ?_, fun other ho => ?_⟩
  · rw [h.byName]
    refine and_congr_right fun ho => ?_
    unfold name?
    rw [hk other ho]
  · rw [h.literals]
    refine and_congr_right fun hn => ?_
    unfold hasKind
    rw [hk other ((h.byName name other).1 hn).1]
  · rw [h.arguments]
    refine List.filter_congr fun other ho => ?_
    unfold hasKind
    rw [hk other ho]
  · rw [h.flags]
    refine List.filter_congr fun other ho => ?_
    unfold hasKind
    rw [hk other ho]
  · exact ⟨(h.bounds other ho).1, Nat.lt_of_lt_of_le (h.bounds other ho).2 hsize⟩

/-- A new child under a new name. -/
theorem insert (h : tree.Indexed id children) {symbol : Symbol κ}
    (hfresh : children.byName.find? symbol.name = none)
    (hkind : tree.kind? child = some symbol.kind) (hnew : child ∉ children.order)
    (hid : id < child) (hsize : child < tree.size) :
    tree.Indexed id (children.insert symbol child) := by
  have hname : tree.name? child = some symbol.name := by simp [name?, hkind]
  have hne : ∀ other ∈ children.order, tree.name? other ≠ some symbol.name := by
    intro other ho hother
    have := (h.byName symbol.name other).2 ⟨ho, hother⟩
    rw [hfresh] at this
    cases this
  refine ⟨?_, fun name other => ?_, fun name other => ?_, ?_, ?_, fun other ho => ?_⟩
  · rw [Children.order_insert]
    exact List.nodup_append.2 ⟨h.nodup, List.nodup_singleton child, by
      intro a ha b hb
      rw [List.mem_singleton.1 hb]
      exact fun e => hnew (e ▸ ha)⟩
  · rw [Children.order_insert, Children.byName_insert, Table.find?_insert, List.mem_append,
      List.mem_singleton]
    split
    · rename_i e
      subst e
      constructor
      · intro ho
        obtain rfl := Option.some.inj ho
        exact ⟨.inr rfl, hname⟩
      · rintro ⟨ho | rfl, hother⟩
        · exact absurd hother (hne other ho)
        · rfl
    · rename_i e
      rw [h.byName]
      refine ⟨fun ho => ⟨.inl ho.1, ho.2⟩, ?_⟩
      rintro ⟨ho | rfl, hother⟩
      · exact ⟨ho, hother⟩
      · exact absurd (Option.some.inj (hname.symm.trans hother)) e
  · rw [Children.literals_insert, Children.byName_insert, Table.find?_insert]
    by_cases e : symbol.name = name
    · subst e
      have hnone : children.literals.find? symbol.name ≠ some other := by
        intro ho
        have := ((h.literals symbol.name other).1 ho).1
        rw [hfresh] at this
        cases this
      cases hk : symbol.kind.isLiteral with
      | true =>
        simp only [↓reduceIte, Table.find?_insert, Option.some.injEq]
        refine ⟨fun ho => ⟨ho, ?_⟩, fun ho => ho.1⟩
        rw [← ho]
        simp [hasKind, hkind, hk]
      | false =>
        refine ⟨fun ho => absurd ho hnone, fun ho => ?_⟩
        obtain ⟨hc, hother⟩ := ho
        simp only [↓reduceIte, Option.some.injEq] at hc
        rw [← hc] at hother
        simp [hasKind, hkind, hk] at hother
    · rw [if_neg e, ← h.literals]
      split
      · rw [Table.find?_insert, if_neg e]
      · rfl
  · rw [Children.order_insert, Children.arguments_insert, List.filter_append, ← h.arguments]
    cases hk : symbol.kind.isArgument <;> simp [hasKind, hkind, hk]
  · rw [Children.order_insert, Children.flags_insert, List.filter_append, ← h.flags]
    cases hk : symbol.kind.isFlag <;> simp [hasKind, hkind, hk]
  · rw [Children.order_insert, List.mem_append, List.mem_singleton] at ho
    rcases ho with ho | rfl
    · exact h.bounds other ho
    · exact ⟨hid, hsize⟩

/-- Whatever text follows, the children it is matched against are children. -/
theorem mem_order_of_relevant (h : tree.Indexed id node.children) {c : Cursor}
    (hm : child ∈ node.relevantChildren c) : child ∈ node.children.order := by
  unfold Node.relevantChildren at hm
  split at hm
  · rename_i literal hl
    rw [List.mem_singleton.1 hm]
    exact ((h.byName _ _).1 ((h.literals _ _).1 hl).1).1
  · rw [List.mem_append, h.arguments, h.flags] at hm
    exact hm.elim List.mem_of_mem_filter List.mem_of_mem_filter

/-- Where all children are literals, the next token says which one it is matched against. -/
theorem relevantChildren_eq (h : tree.Indexed id node.children)
    (hl : ∀ child ∈ node.children.order, tree.hasKind Kind.isLiteral child = true) (c : Cursor) :
    node.relevantChildren c =
      (node.children.byName.find? (String.ofList c.token)).toList := by
  have hnone : ∀ child ∈ node.children.order, tree.hasKind Kind.isArgument child = false ∧
      tree.hasKind Kind.isFlag child = false := by
    intro child hm
    obtain ⟨kind, hk, hkind⟩ := (Option.any_eq_true _ _).1 (hl child hm)
    cases kind with
    | literal name => exact ⟨by simp [hasKind, hk, Kind.isArgument],
        by simp [hasKind, hk, Kind.isFlag]⟩
    | argument a => cases hkind
    | flag f => cases hkind
  have harguments : node.children.arguments = [] := by
    rw [h.arguments, List.filter_eq_nil_iff]
    intro child hm
    simp [(hnone child hm).1]
  have hflags : node.children.flags = [] := by
    rw [h.flags, List.filter_eq_nil_iff]
    intro child hm
    simp [(hnone child hm).2]
  have hliterals : ∀ name,
      node.children.literals.find? name = node.children.byName.find? name := by
    intro name
    ext child
    refine (h.literals name child).trans ⟨fun hc => hc.1, fun hc => ⟨hc, ?_⟩⟩
    exact hl child ((h.byName name child).1 hc).1
  rw [Node.relevantChildren, hliterals, harguments, hflags]
  cases node.children.byName.find? (String.ofList c.token) <;> rfl

/-- A child less. -/
theorem erase (h : tree.Indexed id children) {name : String}
    (hn : children.byName.find? name = some child) :
    tree.Indexed id (children.erase name child) := by
  obtain ⟨hmem, hname⟩ := (h.byName name child).1 hn
  refine ⟨h.nodup.filter _, fun name' other => ?_, fun name' other => ?_, ?_, ?_,
    fun other ho => ?_⟩
  · simp only [Children.erase, Table.find?_erase, List.mem_filter, decide_eq_true_eq]
    split
    · rename_i e
      subst e
      constructor
      · intro ho
        cases ho
      · rintro ⟨⟨ho, hne⟩, hother⟩
        rw [(h.byName name other).2 ⟨ho, hother⟩] at hn
        exact absurd (Option.some.inj hn) hne
    · rename_i e
      rw [h.byName]
      constructor
      · rintro ⟨ho, hother⟩
        refine ⟨⟨ho, ?_⟩, hother⟩
        rintro rfl
        exact e (Option.some.inj (hname.symm.trans hother))
      · rintro ⟨⟨ho, -⟩, hother⟩
        exact ⟨ho, hother⟩
  · simp only [Children.erase, Table.find?_erase]
    split
    · simp
    · exact h.literals name' other
  · simp only [Children.erase, h.arguments]
    exact List.filter_comm _ _ _
  · simp only [Children.erase, h.flags]
    exact List.filter_comm _ _ _
  · exact h.bounds other (List.mem_of_mem_filter ho)

end Indexed

/-! ### All nodes -/

/-- The root is there and is the one node that stands for nothing, the indexes of every node are
right, and no node lies below two others. -/
structure WellFormed (tree : Tree κ) : Prop where
  /-- The root is there. -/
  root : Tree.root < tree.size
  /-- It is the one node that stands for nothing. -/
  kinds : ∀ id < tree.size, tree.kind? id = none ↔ id = Tree.root
  /-- The indexes of the children of every node are right. -/
  indexed : ∀ id node, tree.node? id = some node → tree.Indexed id node.children
  /-- No node lies below two others. -/
  parent_unique : ∀ parent other child, tree.IsChild parent child → tree.IsChild other child →
    parent = other

namespace WellFormed

variable {tree : Tree κ}

theorem bounds_of_isChild (h : tree.WellFormed) {parent child : NodeId}
    (hc : tree.IsChild parent child) : parent < child ∧ child < tree.size := by
  obtain ⟨node, hn, hm⟩ := hc
  exact (h.indexed parent node hn).bounds child hm

theorem isChild_of_relevant (h : tree.WellFormed) {id child : NodeId} {node : Node κ} {c : Cursor}
    (hn : tree.node? id = some node) (hm : child ∈ node.relevantChildren c) :
    tree.IsChild id child :=
  ⟨node, hn, (h.indexed id node hn).mem_order_of_relevant hm⟩

theorem ne_root_of_isChild (h : tree.WellFormed) {id : NodeId} {node : Node κ}
    (hn : tree.node? id = some node) (hc : node.isChild = true) : id ≠ Tree.root := by
  intro e
  have hk := (h.kinds id (lt_size_of_node? hn)).2 e
  rw [kind?, symbol?_of_node? hn, Option.map_eq_none_iff] at hk
  rw [Node.isChild, hk] at hc
  cases hc

theorem isChild_of_ne_root (h : tree.WellFormed) {id : NodeId} {node : Node κ}
    (hn : tree.node? id = some node) (hid : id ≠ Tree.root) : node.isChild = true := by
  have hkind : tree.kind? id ≠ none := fun hk => hid ((h.kinds id (lt_size_of_node? hn)).1 hk)
  rw [kind?, symbol?_of_node? hn, ne_eq, Option.map_eq_none_iff] at hkind
  rw [Node.isChild]
  exact Option.isSome_iff_ne_none.2 hkind

theorem child_ne_root (h : tree.WellFormed) {parent child : NodeId}
    (hc : tree.IsChild parent child) : child ≠ Tree.root :=
  Nat.ne_of_gt (Nat.zero_lt_of_lt (h.bounds_of_isChild hc).1)

theorem exists_root (h : tree.WellFormed) :
    ∃ node, tree.node? Tree.root = some node ∧ node.isChild = false := by
  obtain ⟨node, hn⟩ := exists_node?_of_lt_size h.root
  refine ⟨node, hn, ?_⟩
  by_contra hc
  exact h.ne_root_of_isChild hn (by simpa using hc) rfl

/-- **The children of a well-formed grammar never run in circles.** -/
theorem acyclic (h : tree.WellFormed) (id : NodeId) : ¬ TransGen tree.IsChild id id := by
  have key : ∀ {a b}, TransGen tree.IsChild a b → a < b := by
    intro a b hab
    induction hab with
    | single hc => exact (h.bounds_of_isChild hc).1
    | tail _ hc ih => exact Nat.lt_trans ih (h.bounds_of_isChild hc).1
  intro hid
  exact Nat.lt_irrefl id (key hid)

theorem empty : (Tree.empty : Tree κ).WellFormed := by
  have hsize : ∀ id < (Tree.empty : Tree κ).size, id = Tree.root := fun id hid =>
    Nat.lt_one_iff.1 hid
  have hnode : ∀ id node, (Tree.empty : Tree κ).node? id = some node →
      node = { symbol? := none } := by
    intro id node hn
    obtain rfl := hsize id (lt_size_of_node? hn)
    exact (Option.some.inj hn).symm
  refine ⟨Nat.one_pos, fun id hid => ?_, fun id node hn => ?_, fun p q c hp _ => ?_⟩
  · obtain rfl := hsize id hid
    exact iff_of_true rfl rfl
  · rw [hnode id node hn]
    exact .empty _ _
  · obtain ⟨node, hn, hm⟩ := hp
    rw [hnode p node hn] at hm
    cases hm

/-- A change to one node that keeps all kinds, keeps the node's indexes right and gives it no new
child. -/
theorem modify (h : tree.WellFormed) {id : NodeId} {change : Node κ → Node κ}
    (hkind : ∀ other, (tree.modify id change).kind? other = tree.kind? other)
    (hnode : ∀ node, tree.node? id = some node → tree.Indexed id (change node).children ∧
      (change node).children.order ⊆ node.children.order) :
    (tree.modify id change).WellFormed := by
  have hchild : ∀ parent child, (tree.modify id change).IsChild parent child →
      tree.IsChild parent child := by
    rintro parent child ⟨node, hn, hm⟩
    obtain ⟨rfl, old, ho, rfl⟩ | ⟨-, hn⟩ := node?_modify_eq_some hn
    · exact ⟨old, ho, (hnode old ho).2 hm⟩
    · exact ⟨node, hn, hm⟩
  refine ⟨?_, fun other ho => ?_, fun other node hn => ?_, fun p q c hp hq => ?_⟩
  · rw [size_modify]
    exact h.root
  · rw [size_modify] at ho
    rw [hkind]
    exact h.kinds other ho
  · have hsize : tree.size ≤ (tree.modify id change).size := Nat.le_of_eq (size_modify ..).symm
    obtain ⟨rfl, old, ho, rfl⟩ | ⟨-, hn⟩ := node?_modify_eq_some hn
    · exact (hnode old ho).1.congr hsize fun o _ => hkind o
    · exact (h.indexed other node hn).congr hsize fun o _ => hkind o
  · exact h.parent_unique p q c (hchild p c hp) (hchild q c hq)

theorem insert (h : tree.WellFormed) {parent : NodeId} {owner : Node κ} {symbol : Symbol κ}
    (requirement : Option Requirement) (ho : tree.node? parent = some owner)
    (hf : owner.children.byName.find? symbol.name = none) :
    (tree.insert parent symbol requirement).WellFormed := by
  have hp := lt_size_of_node? ho
  have hkind := kind?_insert hp symbol requirement
  have hold : ∀ {id children}, tree.Indexed id children →
      (tree.insert parent symbol requirement).Indexed id children := fun hi =>
    hi.congr (by simp) fun other hother => by rw [hkind, if_neg (Nat.ne_of_lt hother)]
  -- the new node is a child of its parent, and all other children are old ones
  have hchild : ∀ id child, (tree.insert parent symbol requirement).IsChild id child →
      tree.IsChild id child ∨ id = parent ∧ child = tree.size := by
    rintro id child ⟨node, hn, hm⟩
    obtain ⟨-, rfl⟩ | ⟨rfl, rfl⟩ | hn := node?_insert_eq_some ho hn
    · cases hm
    · rw [Children.order_insert, List.mem_append, List.mem_singleton] at hm
      exact hm.imp (fun hm => ⟨owner, ho, hm⟩) fun hm => ⟨rfl, hm⟩
    · exact .inl ⟨node, hn, hm⟩
  refine ⟨?_, fun id hid => ?_, fun id node hn => ?_, fun p q c hpc hqc => ?_⟩
  · rw [size_insert]
    exact Nat.lt_succ_of_lt h.root
  · rw [hkind]
    split
    · rename_i e
      have : id ≠ Tree.root := by
        rw [e]
        exact Nat.ne_of_gt h.root
      simp [this]
    · rename_i e
      rw [size_insert] at hid
      exact h.kinds id (Nat.lt_of_le_of_ne (Nat.le_of_lt_succ hid) e)
  · obtain ⟨-, rfl⟩ | ⟨rfl, rfl⟩ | hn := node?_insert_eq_some ho hn
    · exact .empty _ _
    · have hi := h.indexed id owner ho
      refine (hold hi).insert hf ?_ ?_ hp ?_
      · rw [hkind, if_pos rfl]
      · exact fun hm => Nat.lt_irrefl _ (hi.bounds _ hm).2
      · simp
    · exact hold (h.indexed id node hn)
  · rcases hchild p c hpc with hold₁ | ⟨hp₁, hs₁⟩
    · rcases hchild q c hqc with hold₂ | ⟨-, hs₂⟩
      · exact h.parent_unique p q c hold₁ hold₂
      · exact absurd hs₂ (Nat.ne_of_lt (h.bounds_of_isChild hold₁).2)
    · rcases hchild q c hqc with hold₂ | ⟨hp₂, -⟩
      · exact absurd hs₁ (Nat.ne_of_lt (h.bounds_of_isChild hold₂).2)
      · exact hp₁.trans hp₂.symm

/-- **No elementary change destroys the indexes.** -/
theorem change {tree' : Tree κ} (h : tree.WellFormed) (hc : Change tree tree') :
    tree'.WellFormed := by
  cases hc with
  | insert ho hf _ _ => exact h.insert _ ho hf
  | @absorb parent id owner node symbol incoming result _ _ hn hs hr =>
    refine h.modify (kind?_modify_symbol hn hs (Symbol.kind_of_absorb hr)) fun node hn => ?_
    exact ⟨h.indexed id node hn, List.Subset.refl _⟩
  | @erase parent id owner name ho hid =>
    refine h.modify (fun other => kind?_modify_children tree parent other
      fun children => children.erase name id) fun node hn => ?_
    obtain rfl := Option.some.inj (ho.symm.trans hn)
    exact ⟨(h.indexed parent owner ho).erase hid, List.filter_subset_self _⟩

/-- Nor do several. -/
theorem changes {tree' : Tree κ} (h : tree.WellFormed) (hc : ReflTransGen Change tree tree') :
    tree'.WellFormed := by
  induction hc with
  | refl => exact h
  | tail _ hc ih => exact ih.change hc

end WellFormed

theorem Reachable.wellFormed {tree : Tree κ} (h : tree.Reachable) : tree.WellFormed :=
  h.induct .empty WellFormed.change

/-- **The indexes of every grammar that can be built are right, and its children form a forest**: no
child is lost, listed twice or listed wrongly, none has two parents, and none lies below itself. -/
theorem wellFormed_and_acyclic_of_reachable {tree : Tree κ} (h : tree.Reachable) :
    tree.WellFormed ∧ ∀ id, ¬ TransGen tree.IsChild id id :=
  ⟨h.wellFormed, h.wellFormed.acyclic⟩

/-- A literal with an argument and a flag, merged with one more literal, then taken away from the
root, and only then given its last child. -/
def orphanExtended : Except Violation (Tree Unit) := do
  let (tree, _) ← Tree.empty.add 0 ⟨.piece (.literal "a") {}, none,
    [⟨.piece (.argument ⟨⟨"x", 0⟩, .boolean⟩) {}, none, []⟩, ⟨.flag 'v', none, []⟩]⟩
  let (tree, _) ← tree.add 0 ⟨.piece (.literal "a") {}, none,
    [⟨.piece (.literal "b") {}, none, []⟩]⟩
  let (tree, _) ← tree.remove 0 "a"
  let (tree, _) ← tree.add 1 ⟨.piece (.literal "c") {}, none, []⟩
  return tree

theorem reachable_of_orphanExtended {tree : Tree Unit} (h : orphanExtended = .ok tree) :
    tree.Reachable := by
  obtain ⟨⟨t₁, _⟩, h₁, h⟩ := exists_of_bind_eq_ok h
  obtain ⟨⟨t₂, _⟩, h₂, h⟩ := exists_of_bind_eq_ok h
  obtain ⟨⟨t₃, _⟩, h₃, h⟩ := exists_of_bind_eq_ok h
  obtain ⟨⟨t₄, _⟩, h₄, h⟩ := exists_of_bind_eq_ok h
  cases h
  have leaf := fun symbol : Symbol Unit => Spec.drafted_of_no_children symbol none
  refine (((ReflTransGen.refl.tail (.add ?_ h₁)).tail (.add ?_ h₂)).tail (.remove h₃)).tail
    (.add (leaf _) h₄)
  · exact .command (((CommandDraft.Drafted.literal "a").child (leaf _) rfl).child (leaf _) rfl)
  · exact .command ((CommandDraft.Drafted.literal "a").child (leaf _) rfl)

theorem wellFormed_and_acyclic_of_orphan_extended :
    ∃ tree : Tree Unit, orphanExtended = .ok tree ∧ tree.Reachable ∧ tree.children 0 = .ok [] ∧
      tree.children 1 = .ok [2, 3, 4, 5] ∧
      tree.WellFormed ∧ ∀ id, ¬ TransGen tree.IsChild id id := by
  have hrun : orphanExtended.map (fun tree => decide (tree.children 0 = .ok [] ∧
      tree.children 1 = .ok [2, 3, 4, 5])) = .ok true := by
    decide +kernel
  obtain ⟨tree, h, hd⟩ := exists_of_map_eq_ok hrun
  obtain ⟨hroot, hnode⟩ := of_decide_eq_true hd
  have hr := reachable_of_orphanExtended h
  exact ⟨tree, h, hr, hroot, hnode, wellFormed_and_acyclic_of_reachable hr⟩

end Tree

end CommandGrammar
