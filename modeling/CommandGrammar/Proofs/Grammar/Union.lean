import CommandGrammar.Proofs.Grammar.Lineage
import Mathlib.Data.Finset.Card
import Mathlib.Data.List.Infix

/-!
# What adding a spec does, and what it leaves alone

A spec has paths of names: its own name, and behind that the paths of its children (`Spec.paths`). A
grammar, too, is a set of paths below every node. Adding a spec makes the union of the two.

Main statement: `Tree.union_of_add`. Exactly the paths of the spec are added, one new node for each
path that is new; names that led to a node still do; every node keeps what it has; and no node is
touched but the parent and those on the paths of the spec (`Tree.Union`).

The tree changes while the children of a spec are added, and a spec may hold the same name more than
once, so that it is merged with what it has just left. What is carried along is therefore how the
grammar at hand differs from the one at the beginning after the paths that were added so far
(`Tree.Grown`): one lemma for a spec that is merged, and one for a spec that becomes a new node.
-/

namespace CommandGrammar

variable {κ : Type}

/-! ### Paths of a spec -/

namespace Spec

/-- The paths of names in a spec, each of which begins with its own name. -/
def paths (spec : Spec κ) : List (List String) := (spec.lineages []).map names

/-- The one path of a spec with a single name has its own name. -/
theorem eq_name_of_mem_paths {spec : Spec κ} {name : String} (h : [name] ∈ spec.paths) :
    name = spec.name := by
  obtain ⟨lineage, hl, hnames⟩ := List.mem_map.1 h
  have hpath : path lineage = [name] := by
    rw [← List.reverse_reverse (path lineage), show (path lineage).reverse = [name] from hnames]
    rfl
  have hlength : lineage.length = 1 := by
    rw [← List.length_map Spec.name, show lineage.map Spec.name = [name] from hpath]
    rfl
  have hself : [spec] = lineage :=
    (suffix_of_mem_lineages hl).eq_of_length (by rw [hlength]; rfl)
  rw [← hself] at hpath
  exact (List.singleton_inj.1 hpath).symm

end Spec

/-! ### What a node keeps -/

/-- A node is still what it was, and has the command and the redirect that it had. -/
structure Node.Retains (old new : Node κ) : Prop where
  /-- It matches the same. -/
  kind : new.symbol?.map Symbol.kind = old.symbol?.map Symbol.kind
  /-- It has the same requirement. -/
  requirement : new.requirement = old.requirement
  /-- A command that it had stays. -/
  command : ∀ command, old.command? = some command → new.command? = some command
  /-- A redirect that it had stays. -/
  redirect : ∀ target, old.redirect? = some target → new.redirect? = some target

theorem Node.Retains.refl (node : Node κ) : node.Retains node :=
  ⟨rfl, rfl, fun _ h => h, fun _ h => h⟩

theorem Node.Retains.trans {first second third : Node κ} (h : first.Retains second)
    (h' : second.Retains third) : first.Retains third where
  kind := h'.kind.trans h.kind
  requirement := h'.requirement.trans h.requirement
  command command hc := h'.command command (h.command command hc)
  redirect target hr := h'.redirect target (h.redirect target hr)

/-- A node is still what it was, and has all that it had. -/
structure Node.Keeps (old new : Node κ) : Prop extends Node.Retains old new where
  /-- New children come behind the old ones. -/
  children : old.children.order <+: new.children.order

theorem Node.Keeps.refl (node : Node κ) : node.Keeps node := ⟨.refl node, List.prefix_refl _⟩

theorem Node.Keeps.trans {first second third : Node κ} (h : first.Keeps second)
    (h' : second.Keeps third) : first.Keeps third :=
  ⟨h.toRetains.trans h'.toRetains, h.children.trans h'.children⟩

/-- A symbol that has a command keeps it when it absorbs another one. -/
theorem Symbol.command_mono_of_absorb {symbol incoming result : Symbol κ} {hasChildren : Bool}
    {command : κ} (h : symbol.absorb hasChildren incoming = .ok result)
    (hc : symbol.ending?.bind Ending.command = some command) :
    result.ending?.bind Ending.command = some command := by
  have hflag : result.isFlag = false := by
    rw [← isFlag_kind, kind_of_absorb h, isFlag_kind]
    cases symbol with
    | piece p ending => rfl
    | flag c => cases hc
  have htoList := command_of_absorb h hflag
  rw [hc] at htoList
  cases hr : result.ending?.bind Ending.command with
  | none => simp [hr] at htoList
  | some other => simp_all

/-- Absorbing a symbol takes nothing away from a node. -/
theorem Node.keeps_of_absorb {node : Node κ} {symbol incoming result : Symbol κ}
    (hs : node.symbol? = some symbol)
    (h : symbol.absorb (!node.children.order.isEmpty) incoming = .ok result) :
    node.Keeps { node with symbol? := some result } where
  kind := by rw [hs, Option.map_some, Option.map_some, Symbol.kind_of_absorb h]
  requirement := rfl
  command command hc := by
    rw [Node.command?, Node.ending?, hs] at hc
    exact Symbol.command_mono_of_absorb h hc
  redirect target hr := by
    rw [Node.redirect?, Node.ending?, hs] at hr
    rcases Symbol.redirect?_of_absorb h with he | he
    · exact he.trans hr
    · exact absurd (he.symm.trans hr) (by simp)
  children := List.prefix_refl _

/-- So does a child more. -/
theorem Node.keeps_of_insert (node : Node κ) (symbol : Symbol κ) (id : NodeId) :
    node.Keeps { node with children := node.children.insert symbol id } where
  kind := rfl
  requirement := rfl
  command _ hc := hc
  redirect _ hr := hr
  children := by
    rw [Children.order_insert]
    exact List.prefix_append _ _

namespace Tree

variable {tree tree' before now later : Tree κ} {base parent id : NodeId} {owner : Node κ}
  {spec : Spec κ} {path : List String} {done : List (List String)}

/-! ### One path after the other -/

/-- What becomes of every node from one grammar to the next becomes of it in the end. -/
theorem exists_node?_trans {R : Node κ → Node κ → Prop}
    (htrans : ∀ {first second third}, R first second → R second third → R first third)
    (h : ∀ id old, before.node? id = some old → ∃ node, now.node? id = some node ∧ R old node)
    (h' : ∀ id node, now.node? id = some node → ∃ new, later.node? id = some new ∧ R node new) :
    ∀ id old, before.node? id = some old → ∃ new, later.node? id = some new ∧ R old new := by
  intro id old hold
  obtain ⟨node, hn, hr⟩ := h id old hold
  obtain ⟨new, hnew, hr'⟩ := h' id node hn
  exact ⟨new, hnew, htrans hr hr'⟩

/-- Every node has what it had. -/
def NodesKeep (tree tree' : Tree κ) : Prop :=
  ∀ id old, tree.node? id = some old → ∃ new, tree'.node? id = some new ∧ old.Keeps new

theorem NodesKeep.trans (h : before.NodesKeep now) (h' : now.NodesKeep later) :
    before.NodesKeep later :=
  exists_node?_trans Node.Keeps.trans h h'

theorem nodesKeep_modify_symbol {node : Node κ} {symbol incoming result : Symbol κ}
    (hn : tree.node? id = some node) (hs : node.symbol? = some symbol)
    (hr : symbol.absorb (!node.children.order.isEmpty) incoming = .ok result) :
    tree.NodesKeep (tree.modify id fun node => { node with symbol? := some result }) := by
  intro other old hold
  rw [node?_modify, hold]
  split
  · rename_i e
    subst e
    obtain rfl := Option.some.inj (hn.symm.trans hold)
    exact ⟨_, rfl, Node.keeps_of_absorb hs hr⟩
  · exact ⟨old, rfl, .refl old⟩

theorem nodesKeep_insert (ho : tree.node? parent = some owner) (symbol : Symbol κ)
    (requirement : Option Requirement) :
    tree.NodesKeep (tree.insert parent symbol requirement) := by
  intro other old hold
  rw [node?_insert (lt_size_of_node? ho), if_neg (Nat.ne_of_lt (lt_size_of_node? hold)), hold]
  split
  · exact ⟨_, rfl, Node.keeps_of_insert old symbol tree.size⟩
  · exact ⟨old, rfl, .refl old⟩

/-- What a grammar has become by adding some paths below a node. -/
structure Grown (before : Tree κ) (base : NodeId) (done : List (List String)) (now : Tree κ) :
    Prop where
  /-- The grammar is well formed. -/
  wellFormed : now.WellFormed
  /-- The paths below the node are those of before and those that were added. -/
  resolves : ∀ path, now.Resolves base path ↔ before.Resolves base path ∨ path ∈ done
  /-- Names that led to a node still do. -/
  stays : before.NamesStay now
  /-- Every node has what it had. -/
  keeps : ∀ id old, before.node? id = some old → ∃ new, now.node? id = some new ∧ old.Keeps new
  /-- A node is as it was, unless something was added below it or merged with it. -/
  frame : ∀ id, id ≠ base → (∀ path ∈ done, ¬ now.Leads base path id) →
    now.node? id = before.node? id
  /-- There is a new node for each new path. -/
  size : now.size =
    before.size + (done.toFinset.filter fun path => ¬ before.Resolves base path).card

namespace Grown

theorem refl (hw : tree.WellFormed) : tree.Grown base [] tree where
  wellFormed := hw
  resolves path := by simp
  stays _ _ _ h := h
  keeps id old h := ⟨old, h, .refl old⟩
  frame _ _ _ := rfl
  size := by simp

/-- A path that is there already is not counted again. -/
theorem filter_append_of_resolves (h : before.Grown base done now) (hp : now.Resolves base path) :
    ((done ++ [path]).toFinset.filter fun path => ¬ before.Resolves base path) =
      done.toFinset.filter fun path => ¬ before.Resolves base path := by
  ext other
  simp only [Finset.mem_filter, List.mem_toFinset, List.mem_append, List.mem_singleton]
  refine and_congr_left fun hnew => ⟨fun ho => ?_, .inl⟩
  rcases ho with ho | rfl
  · exact ho
  · exact ((h.resolves other).1 hp).resolve_left hnew

/-- A path that is not there yet is one more. -/
theorem card_filter_append_of_new (h : before.Grown base done now) (hp : ¬ now.Resolves base path) :
    ((done ++ [path]).toFinset.filter fun path => ¬ before.Resolves base path).card =
      (done.toFinset.filter fun path => ¬ before.Resolves base path).card + 1 := by
  rw [h.resolves, not_or] at hp
  obtain ⟨hnew, hdone⟩ := hp
  have hset : ((done ++ [path]).toFinset.filter fun path => ¬ before.Resolves base path) =
      Insert.insert path (done.toFinset.filter fun path => ¬ before.Resolves base path) := by
    ext other
    simp only [Finset.mem_filter, List.mem_toFinset, List.mem_append, List.mem_singleton,
      Finset.mem_insert]
    constructor
    · rintro ⟨ho | rfl, hother⟩
      · exact .inr ⟨ho, hother⟩
      · exact .inl rfl
    · rintro (rfl | ⟨ho, hother⟩)
      · exact ⟨.inr rfl, hnew⟩
      · exact ⟨.inl ho, hother⟩
  rw [hset, Finset.card_insert_of_notMem]
  intro hmem
  exact hdone (List.mem_toFinset.1 (Finset.mem_filter.1 hmem).1)

/-- A spec that is merged with the child at its path adds no path, and changes that child only. -/
theorem absorb (h : before.Grown base done now) (hp : now.Leads base path parent)
    (ho : now.node? parent = some owner) (hid : owner.children.byName.find? spec.name = some id)
    (ha : now.absorb id spec.symbol = .ok later) :
    before.Grown base (done ++ [path ++ [spec.name]]) later := by
  have hat : now.Leads base (path ++ [spec.name]) id :=
    leads_append_singleton_iff.2 ⟨parent, owner, hp, ho, hid⟩
  obtain ⟨node, symbol, result, hn, hs, hr, rfl⟩ := h.wellFormed.exists_of_absorb ho hid ha
  refine ⟨h.wellFormed.change (.absorb ho hid hn hs hr), ?resolves,
    h.stays.trans (namesStay_modify_symbol now id result),
    NodesKeep.trans h.keeps (nodesKeep_modify_symbol hn hs hr), ?frame, ?size⟩
  case resolves =>
    intro other
    rw [show Tree.Resolves _ base other ↔ now.Resolves base other from
      exists_congr fun _ => leads_modify_symbol, h.resolves, List.mem_append, List.mem_singleton,
      ← or_assoc, ← h.resolves]
    refine ⟨.inl, ?_⟩
    rintro (ho | rfl)
    · exact ho
    · exact ⟨id, hat⟩
  case frame =>
    intro other hne hoff
    rw [node?_modify, if_neg]
    · refine h.frame other hne fun path hp hl => ?_
      exact hoff path (List.mem_append_left _ hp) (leads_modify_symbol.2 hl)
    · rintro rfl
      exact hoff _ (List.mem_append_right _ List.mem_cons_self) (leads_modify_symbol.2 hat)
  case size =>
    rw [size_modify, h.size, h.filter_append_of_resolves ⟨id, hat⟩]

/-- A spec that becomes a new node adds its path, and changes the parent only. -/
theorem attach (h : before.Grown base done now) (hp : now.Leads base path parent)
    (hpath : path = [] ∨ path ∈ done) (ho : now.node? parent = some owner)
    (hf : owner.children.byName.find? spec.name = none)
    (ha : now.attach parent owner spec.symbol spec.requirement = .ok later) :
    before.Grown base (done ++ [path ++ [spec.name]]) later := by
  obtain ⟨-, -, rfl⟩ := attach_eq_ok ha
  have hleads : ∀ {start other goal},
      (now.insert parent spec.symbol spec.requirement).Leads start other goal ↔ _ :=
    leads_insert_iff ho hf
  have hat : (now.insert parent spec.symbol spec.requirement).Leads base (path ++ [spec.name])
      now.size :=
    hleads.2 (.inr ⟨path, hp, rfl, rfl⟩)
  have hfresh := not_resolves_of_fresh hp ho hf
  have hlt := lt_size_of_node? ho
  refine ⟨h.wellFormed.insert _ ho hf, ?resolves,
    h.stays.trans (namesStay_insert ho hf spec.requirement),
    NodesKeep.trans h.keeps (nodesKeep_insert ho spec.symbol spec.requirement), ?frame, ?size⟩
  case resolves =>
    intro other
    rw [List.mem_append, List.mem_singleton, ← or_assoc, ← h.resolves]
    constructor
    · rintro ⟨goal, hgoal⟩
      rcases hleads.1 hgoal with hold | ⟨front, hfront, rfl, -⟩
      · exact .inl ⟨goal, hold⟩
      · exact .inr (by rw [hfront.path_eq h.wellFormed hp]; rfl)
    · rintro (⟨goal, hold⟩ | rfl)
      · exact ⟨goal, hleads.2 (.inl hold)⟩
      · exact ⟨now.size, hat⟩
  case frame =>
    intro other hne hoff
    rw [node?_insert hlt, if_neg, if_neg]
    · refine h.frame other hne fun path hp hl => ?_
      exact hoff path (List.mem_append_left _ hp) (hleads.2 (.inl hl))
    · -- the parent is the node itself, or its path was added before
      rintro rfl
      rcases hpath with rfl | hpath
      · exact hne (leads_nil_iff.1 hp)
      · exact hoff path (List.mem_append_left _ hpath) (hleads.2 (.inl hp))
    · rintro rfl
      exact hoff _ (List.mem_append_right _ List.mem_cons_self) hat
  case size =>
    rw [size_insert, h.size, h.card_filter_append_of_new hfresh, Nat.add_assoc]

/-- **Both steps of adding specs below a node add the names of their lineages.** -/
theorem keptByAdding (before : Tree κ) (base : NodeId) :
    KeptByAdding base fun done now => before.Grown base (done.map Spec.names) now where
  absorb h hp ho hid ha := by
    rw [List.map_append, List.map_singleton, Spec.names_cons]
    exact h.absorb hp ho hid ha
  attach h hp habove ho hf ha := by
    rw [List.map_append, List.map_singleton, Spec.names_cons]
    refine h.attach hp (habove.imp ?_ List.mem_map_of_mem) ho hf ha
    rintro rfl
    rfl

end Grown

/-! ### The union -/

/-- What adding a spec below a node has done to a grammar. -/
structure Union (tree : Tree κ) (parent : NodeId) (spec : Spec κ) (tree' : Tree κ) (id : NodeId) :
    Prop where
  /-- The paths below the parent are those of before and those of the spec. -/
  resolves : ∀ path, tree'.Resolves parent path ↔ tree.Resolves parent path ∨ path ∈ spec.paths
  /-- Names that led to a node, from whatever node on, still do. -/
  stays : ∀ start path other, tree.Leads start path other → tree'.Leads start path other
  /-- The spec has become the child of its name. -/
  child : tree'.child? parent spec.name = .ok (some id)
  /-- Every node has what it had. -/
  keeps : ∀ other old, tree.node? other = some old →
    ∃ new, tree'.node? other = some new ∧ old.Keeps new
  /-- Only the parent and the nodes on the paths of the spec have changed. -/
  frame : ∀ other, other ≠ parent → (∀ path ∈ spec.paths, ¬ tree'.Leads parent path other) →
    tree'.node? other = tree.node? other
  /-- There is a new node for each path of the spec that is new. -/
  size : tree'.size =
    tree.size + (spec.paths.toFinset.filter fun path => ¬ tree.Resolves parent path).card

theorem WellFormed.union_of_add (hw : tree.WellFormed)
    (h : tree.add parent spec = .ok (tree', id)) : tree.Union parent spec tree' id := by
  have hrefl : tree.Grown parent (List.map Spec.names ([] : List (List (Spec κ)))) tree := .refl hw
  obtain ⟨hgrown, -, hat⟩ :=
    (Grown.keptByAdding tree parent).add hrefl (leads_nil_iff.2 rfl) (.inl rfl) h
  exact ⟨hgrown.resolves, hgrown.stays, leads_singleton_iff.1 hat, hgrown.keeps, hgrown.frame,
    hgrown.size⟩

/-- **Adding a spec makes the union of its paths with those of the grammar, and touches nothing
else.** -/
theorem union_of_add_of_reachable (h : tree.Reachable)
    (ha : tree.add parent spec = .ok (tree', id)) : tree.Union parent spec tree' id :=
  h.wellFormed.union_of_add ha

/-- A literal with another one below it. -/
def stem : Except Violation (Tree Unit) := do
  let (tree, _) ← Tree.empty.add root ⟨.piece (.literal "a") {}, none,
    [⟨.piece (.literal "b") {}, none, []⟩]⟩
  return tree

/-- Both again, the second one twice, with three names that are new. -/
def branches : Spec Unit :=
  let word (name : String) (below : List (Spec Unit)) : Spec Unit :=
    ⟨.piece (.literal name) {}, none, below⟩
  word "a" [word "b" [word "c" []], word "b" [word "d" []], word "e" []]

theorem reachable_of_stem {tree : Tree Unit} (h : stem = .ok tree) : tree.Reachable := by
  obtain ⟨⟨t, _⟩, ha, h⟩ := exists_of_bind_eq_ok h
  cases h
  have hb := Spec.drafted_of_no_children (.piece (.literal "b") {} : Symbol Unit) none
  exact .single (.add (.command ((CommandDraft.Drafted.literal "a").child hb rfl)) ha)

/-- The spec has six paths, of which two are the same and three are new. -/
theorem union_of_add_of_reachable_stem :
    ∃ tree tree' : Tree Unit, stem = .ok tree ∧ tree.Reachable ∧
      tree.add root branches = .ok (tree', 1) ∧ tree.size = 3 ∧ tree'.size = 6 ∧
      branches.paths =
        [["a"], ["a", "b"], ["a", "b", "c"], ["a", "b"], ["a", "b", "d"], ["a", "e"]] ∧
      tree.Union root branches tree' 1 := by
  have hrun : (stem >>= fun tree => (tree.add root branches).map fun (tree', id) =>
      (tree.size, tree'.size, id)) = .ok (3, 6, 1) := by
    decide +kernel
  obtain ⟨tree, h, hadd⟩ := exists_of_bind_eq_ok hrun
  obtain ⟨⟨tree', id⟩, ha, hsize⟩ := exists_of_map_eq_ok hadd
  obtain ⟨hbefore, hsize⟩ := Prod.mk.inj hsize
  obtain ⟨hafter, rfl⟩ := Prod.mk.inj hsize
  have hreach := reachable_of_stem h
  exact ⟨tree, tree', h, hreach, ha, hbefore, hafter, rfl, union_of_add_of_reachable hreach ha⟩

end Tree

end CommandGrammar
