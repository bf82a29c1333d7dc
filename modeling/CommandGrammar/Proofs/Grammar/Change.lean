import CommandGrammar.Dispatcher
import Mathlib.Logic.Relation

/-!
# The grammars that can be built

A grammar is built by calls that add a spec below any node, or remove a child of any node. This
module says which specs, grammars and dispatchers can come up (`Spec.Drafted`, `Tree.Reachable`,
`Dispatcher.Reachable`), and cuts every call into elementary changes: one new node below a parent,
one node that absorbs a symbol of its name, or one child taken away (`Tree.Change`).

Main statements: every call is a sequence of elementary changes (`Tree.changes_of_edit`), and every
elementary change is a call of its own (`Tree.Change.edit`). So a property of the empty grammar that
no elementary change destroys is one of every grammar that can be built (`Tree.Reachable.induct`),
and nobody has to look again at how a spec is merged into a grammar.
-/

namespace CommandGrammar

open Relation

variable {κ : Type}

/-! ### Specs -/

mutual

/-- A spec that comes out of a draft. -/
inductive Spec.Drafted : Spec κ → Prop where
  /-- A finished literal or argument. -/
  | command {draft : CommandDraft κ} : draft.Drafted → Spec.Drafted draft.toSpec
  /-- A finished flag. -/
  | flag {draft : FlagDraft κ} : draft.Drafted → Spec.Drafted draft.toSpec

/-- A literal or an argument in the making, after any calls that did not break a rule. -/
inductive CommandDraft.Drafted : CommandDraft κ → Prop where
  /-- A bare literal. -/
  | literal (name : String) : CommandDraft.Drafted (literal name)
  /-- A bare argument. -/
  | argument (a : Argument) : CommandDraft.Drafted (argument a)
  /-- A child is added. -/
  | child {draft result : CommandDraft κ} {spec : Spec κ} : draft.Drafted → spec.Drafted →
      draft.child spec = .ok result → CommandDraft.Drafted result
  /-- The requirement is set. -/
  | requires {draft : CommandDraft κ} (requirement : Requirement) : draft.Drafted →
      CommandDraft.Drafted (draft.requires requirement)
  /-- A command is bound. -/
  | executes {draft result : CommandDraft κ} {command : κ} : draft.Drafted →
      draft.executes command = .ok result → CommandDraft.Drafted result
  /-- The redirect is set. -/
  | redirects {draft result : CommandDraft κ} {target : NodeId} : draft.Drafted →
      draft.redirects target = .ok result → CommandDraft.Drafted result

/-- A flag in the making, after any calls. -/
inductive FlagDraft.Drafted : FlagDraft κ → Prop where
  /-- A bare flag. -/
  | flag (c : Char) : FlagDraft.Drafted (flag c)
  /-- A child is added. -/
  | child {draft : FlagDraft κ} {spec : Spec κ} : draft.Drafted → spec.Drafted →
      FlagDraft.Drafted (draft.child spec)
  /-- The requirement is set. -/
  | requires {draft : FlagDraft κ} (requirement : Requirement) : draft.Drafted →
      FlagDraft.Drafted (draft.requires requirement)

end

theorem CommandDraft.drafted_of_piece (p : Piece) : Drafted ({ piece := p } : CommandDraft κ) := by
  cases p with
  | literal name => exact .literal name
  | argument a => exact .argument a

theorem CommandDraft.Drafted.withCommand {draft : CommandDraft κ} (h : draft.Drafted)
    (hc : draft.ending.command = none) (command : Option κ) :
    Drafted { draft with ending := { draft.ending with command } } := by
  cases command with
  | none =>
    rw [← hc]
    exact h
  | some command =>
    have he : draft.executes command =
        .ok { draft with ending := { draft.ending with command := some command } } := by
      simp [CommandDraft.executes, Ending.bindCommand, hc, Except.map]
    exact h.executes he

theorem CommandDraft.Drafted.withRedirect {draft : CommandDraft κ} (h : draft.Drafted)
    (hr : draft.ending.redirect = none) (hc : draft.children = []) (redirect : Option NodeId) :
    Drafted { draft with ending := { draft.ending with redirect } } := by
  cases redirect with
  | none =>
    rw [← hr]
    exact h
  | some target =>
    have he : draft.redirects target =
        .ok { draft with ending := { draft.ending with redirect := some target } } := by
      simp [CommandDraft.redirects, hc]
    exact h.redirects he

/-- Every spec without children can be drafted. -/
theorem Spec.drafted_of_no_children (symbol : Symbol κ) (requirement : Option Requirement) :
    Drafted ⟨symbol, requirement, []⟩ := by
  cases symbol with
  | piece p ending =>
    obtain ⟨command, redirect⟩ := ending
    have h : CommandDraft.Drafted ⟨p, none, ⟨command, redirect⟩, []⟩ :=
      ((CommandDraft.drafted_of_piece p).withCommand rfl command).withRedirect rfl rfl redirect
    cases requirement with
    | none => exact .command h
    | some requirement => exact .command (h.requires requirement)
  | flag c =>
    cases requirement with
    | none => exact .flag (.flag c)
    | some requirement => exact .flag ((FlagDraft.Drafted.flag c).requires requirement)

namespace Tree

/-! ### Calls and elementary changes -/

/-- One call that changes a grammar and breaks no rule. -/
inductive Edit (tree : Tree κ) : Tree κ → Prop where
  /-- A spec is added below some node. -/
  | add {tree' : Tree κ} {parent id : NodeId} {spec : Spec κ} : spec.Drafted →
      tree.add parent spec = .ok (tree', id) → Edit tree tree'
  /-- The child of a name, if there is one, is taken away from some node. -/
  | remove {tree' : Tree κ} {parent : NodeId} {name : String} {id? : Option NodeId} :
      tree.remove parent name = .ok (tree', id?) → Edit tree tree'

/-- A grammar that comes out of the empty one by any number of calls. -/
def Reachable (tree : Tree κ) : Prop := ReflTransGen Edit .empty tree

/-- One elementary change of a grammar. -/
inductive Change (tree : Tree κ) : Tree κ → Prop where
  /-- A new node comes below a parent that has no child of its name and no redirect. If the node has
  a redirect, it leads to a node at which a line can end. -/
  | insert {parent : NodeId} {owner : Node κ} {symbol : Symbol κ}
      {requirement : Option Requirement} : tree.node? parent = some owner →
      owner.children.byName.find? symbol.name = none → owner.redirect? = none →
      (∀ target, symbol.ending?.bind Ending.redirect = some target →
        tree.isTarget target = true) →
      Change tree (tree.insert parent symbol requirement)
  /-- A child absorbs a symbol of its name. -/
  | absorb {parent id : NodeId} {owner node : Node κ} {symbol incoming result : Symbol κ} :
      tree.node? parent = some owner → owner.children.byName.find? incoming.name = some id →
      tree.node? id = some node → node.symbol? = some symbol →
      symbol.absorb (!node.children.order.isEmpty) incoming = .ok result →
      Change tree (tree.modify id fun node => { node with symbol? := some result })
  /-- A child is taken away from its parent. -/
  | erase {parent id : NodeId} {owner : Node κ} {name : String} : tree.node? parent = some owner →
      owner.children.byName.find? name = some id →
      Change tree (tree.modify parent fun node =>
        { node with children := node.children.erase name id })

theorem changes_of_absorb {tree tree' : Tree κ} {parent id : NodeId} {owner : Node κ}
    {incoming : Symbol κ} (ho : tree.node? parent = some owner)
    (hid : owner.children.byName.find? incoming.name = some id)
    (h : tree.absorb id incoming = .ok tree') : ReflTransGen Change tree tree' := by
  obtain ⟨node, hn, ⟨-, rfl⟩ | ⟨symbol, result, hs, hr, rfl⟩⟩ := absorb_eq_ok h
  · exact .refl
  · exact .single (.absorb ho hid hn hs hr)

theorem change_of_attach {tree tree' : Tree κ} {parent : NodeId} {owner : Node κ}
    {symbol : Symbol κ} {requirement : Option Requirement} (ho : tree.node? parent = some owner)
    (hf : owner.children.byName.find? symbol.name = none)
    (h : tree.attach parent owner symbol requirement = .ok tree') : Change tree tree' := by
  obtain ⟨hr, ht, rfl⟩ := attach_eq_ok h
  exact .insert ho hf hr ht

mutual

/-- Adding a spec is a sequence of elementary changes. -/
theorem changes_of_add {tree tree' : Tree κ} {parent id : NodeId} :
    ∀ {spec : Spec κ}, tree.add parent spec = .ok (tree', id) → ReflTransGen Change tree tree'
  | ⟨symbol, requirement, specs⟩, h => by
    obtain ⟨owner, ho, ⟨hid, merged, hm, ha⟩ | ⟨hf, -, attached, hm, ha⟩⟩ := add_eq_ok h
    · exact (changes_of_absorb ho hid hm).trans (changes_of_addAll ha)
    · exact (ReflTransGen.single (change_of_attach ho hf hm)).trans (changes_of_addAll ha)

/-- So is adding several. -/
theorem changes_of_addAll {tree tree' : Tree κ} {parent : NodeId} :
    ∀ {specs : List (Spec κ)}, tree.addAll parent specs = .ok tree' → ReflTransGen Change tree tree'
  | [], h => by
    rw [addAll] at h
    cases h
    exact .refl
  | spec :: specs, h => by
    obtain ⟨added, id, ha, h⟩ := addAll_cons_eq_ok h
    exact (changes_of_add ha).trans (changes_of_addAll h)

end

/-- **Every call is a sequence of elementary changes.** -/
theorem changes_of_edit {tree tree' : Tree κ} (h : Edit tree tree') :
    ReflTransGen Change tree tree' := by
  cases h with
  | add _ h => exact changes_of_add h
  | remove h =>
    obtain ⟨owner, ho, hn, ⟨-, rfl⟩ | ⟨id, rfl, rfl⟩⟩ := remove_eq_ok h
    · exact .refl
    · exact .single (.erase ho hn)

theorem attach_eq_insert {tree : Tree κ} {parent : NodeId} {owner : Node κ} {symbol : Symbol κ}
    {requirement : Option Requirement} (hr : owner.redirect? = none)
    (ht : ∀ target, symbol.ending?.bind Ending.redirect = some target →
      tree.isTarget target = true) :
    tree.attach parent owner symbol requirement = .ok (tree.insert parent symbol requirement) := by
  unfold attach
  rw [hr]
  cases h : symbol.ending?.bind Ending.redirect with
  | none => rfl
  | some target =>
    simp only [ht target h, ↓reduceIte]
    rfl

theorem absorb_eq_map {tree : Tree κ} {id : NodeId} {node : Node κ} {symbol : Symbol κ}
    (hn : tree.node? id = some node) (hs : node.symbol? = some symbol) (incoming : Symbol κ) :
    tree.absorb id incoming = (symbol.absorb (!node.children.order.isEmpty) incoming).map
      fun result => tree.modify id fun node => { node with symbol? := some result } := by
  unfold absorb
  rw [node_eq_ok.2 hn]
  simp only [bind, Except.bind, hs]
  cases symbol.absorb (!node.children.order.isEmpty) incoming <;> rfl

section Add

variable {tree : Tree κ} {parent id : NodeId} {owner : Node κ} {symbol : Symbol κ}
  {requirement : Option Requirement} {specs : List (Spec κ)}

/-- Where there is a child of its name, a spec is merged with it. -/
theorem add_of_child (ho : tree.node? parent = some owner)
    (hid : owner.children.byName.find? symbol.name = some id) :
    tree.add parent ⟨symbol, requirement, specs⟩ =
      tree.absorb id symbol >>= fun merged =>
        (merged.addAll id specs).map fun later => (later, id) := by
  rw [add, node_eq_ok.2 ho]
  simp only [bind, Except.bind, hid]
  rfl

/-- Where there is none, it becomes a new node. -/
theorem add_of_new (ho : tree.node? parent = some owner)
    (hf : owner.children.byName.find? symbol.name = none) :
    tree.add parent ⟨symbol, requirement, specs⟩ =
      tree.attach parent owner symbol requirement >>= fun attached =>
        (attached.addAll tree.size specs).map fun later => (later, tree.size) := by
  rw [add, node_eq_ok.2 ho]
  simp only [bind, Except.bind, hf]
  rfl

end Add

/-- **Every elementary change is a call of its own.** -/
theorem Change.edit {tree tree' : Tree κ} (h : Change tree tree') : Edit tree tree' := by
  cases h with
  | @insert parent owner symbol requirement ho hf hr ht =>
    have ha : tree.add parent ⟨symbol, requirement, []⟩ =
        .ok (tree.insert parent symbol requirement, tree.size) := by
      rw [add_of_new ho hf, attach_eq_insert hr ht]
      simp only [bind, Except.bind, addAll]
      rfl
    exact .add (Spec.drafted_of_no_children symbol requirement) ha
  | @absorb parent id owner node symbol incoming result ho hid hn hs hr =>
    have ha : tree.add parent ⟨incoming, none, []⟩ =
        .ok (tree.modify id fun node => { node with symbol? := some result }, id) := by
      rw [add_of_child ho hid, absorb_eq_map hn hs, hr]
      simp only [Except.map, bind, Except.bind, addAll]
      rfl
    exact .add (Spec.drafted_of_no_children incoming none) ha
  | @erase parent id owner name ho hid =>
    have hr : tree.remove parent name = .ok (tree.modify parent fun node =>
        { node with children := node.children.erase name id }, some id) := by
      rw [remove, child?, node_eq_ok.2 ho]
      simp only [Except.map, bind, Except.bind, hid]
      rfl
    exact .remove hr

theorem Reachable.changes {tree : Tree κ} (h : tree.Reachable) :
    ReflTransGen Change .empty tree := by
  induction h with
  | refl => exact .refl
  | tail _ he ih => exact ih.trans (changes_of_edit he)

/-- **What no elementary change destroys**, every grammar that can be built has. -/
theorem Reachable.induct {P : Tree κ → Prop} (empty : P .empty)
    (step : ∀ {tree tree' : Tree κ}, P tree → Change tree tree' → P tree') {tree : Tree κ}
    (h : tree.Reachable) : P tree := by
  replace h := h.changes
  induction h with
  | refl => exact empty
  | tail _ hc ih => exact step ih hc

/-! ### What the nodes stand for -/

/-- What the node at a place stands for; nothing, if it is the root. -/
def symbol? (tree : Tree κ) (id : NodeId) : Option (Symbol κ) :=
  (tree.node? id).bind Node.symbol?

theorem symbol?_of_node? {tree : Tree κ} {id : NodeId} {node : Node κ}
    (h : tree.node? id = some node) : tree.symbol? id = node.symbol? := by
  rw [symbol?, h]
  rfl

theorem lt_size_of_symbol? {tree : Tree κ} {id : NodeId} {symbol : Symbol κ}
    (h : tree.symbol? id = some symbol) : id < tree.size := by
  obtain ⟨node, hn, -⟩ := Option.bind_eq_some_iff.1 h
  exact lt_size_of_node? hn

theorem symbol?_modify_children (tree : Tree κ) (id other : NodeId) (f : Children → Children) :
    (tree.modify id fun node => { node with children := f node.children }).symbol? other =
      tree.symbol? other := by
  unfold symbol?
  rw [node?_modify]
  split
  · cases tree.node? other <;> rfl
  · rfl

theorem symbol?_modify_symbol (tree : Tree κ) {id : NodeId} (hid : id < tree.size)
    (symbol : Symbol κ) (other : NodeId) :
    (tree.modify id fun node => { node with symbol? := some symbol }).symbol? other =
      if other = id then some symbol else tree.symbol? other := by
  unfold symbol?
  rw [node?_modify]
  by_cases h : other = id
  · subst h
    obtain ⟨node, hn⟩ := exists_node?_of_lt_size hid
    simp [hn]
  · rw [if_neg h, if_neg fun e => h e.symm]

theorem symbol?_insert {tree : Tree κ} {parent : NodeId} (hp : parent < tree.size)
    (symbol : Symbol κ) (requirement : Option Requirement) (other : NodeId) :
    (tree.insert parent symbol requirement).symbol? other =
      if other = tree.size then some symbol else tree.symbol? other := by
  unfold symbol?
  rw [node?_insert hp]
  by_cases h : other = tree.size
  · simp [h]
  · rw [if_neg h, if_neg h]
    split
    · cases tree.node? other <;> rfl
    · rfl

end Tree

/-! ### Dispatchers -/

namespace Dispatcher

/-- A dispatcher that comes out of one without commands by any number of calls. -/
inductive Reachable : Dispatcher κ → Prop where
  /-- There is no command yet. -/
  | start (style : UsageStyle) : Reachable { style }
  /-- A command is registered. -/
  | register {d d' : Dispatcher κ} {draft : CommandDraft κ} {id : NodeId} : Reachable d →
      draft.Drafted → d.register draft = .ok (d', id) → Reachable d'
  /-- The command of a name, if there is one, is removed. -/
  | remove {d d' : Dispatcher κ} {name : String} {id? : Option NodeId} : Reachable d →
      d.remove name = .ok (d', id?) → Reachable d'
  /-- The style is replaced. -/
  | restyle {d : Dispatcher κ} (style : UsageStyle) : Reachable d → Reachable { d with style }

/-- The grammar of a dispatcher that can be built can be built. -/
theorem Reachable.tree {d : Dispatcher κ} (h : d.Reachable) : d.tree.Reachable := by
  induction h with
  | start _ => exact .refl
  | register _ hd h ih =>
    obtain ⟨⟨tree, id⟩, ha, h⟩ := exists_of_bind_eq_ok h
    cases h
    exact ih.tail (.add (.command hd) ha)
  | remove _ h ih =>
    obtain ⟨⟨tree, id?⟩, hr, h⟩ := exists_of_bind_eq_ok h
    cases h
    exact ih.tail (.remove hr)
  | restyle _ _ ih => exact ih

end Dispatcher

end CommandGrammar
