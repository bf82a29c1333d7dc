import CommandGrammar.Grammar.Spec
import CommandGrammar.Grammar.Tree

/-!
# Changing grammars

`Tree.add` puts a spec below a node. If the node has no child of that name, the spec becomes a new
child, with new nodes for everything below it. If there is one, the two are merged: the node that is
there keeps what it stands for and its requirement, absorbs the command and the redirect of the spec,
and the children of the spec are added below it in the same way.

`Tree.remove` takes a child away from its parent. Its node stays in the array, so redirects to it
still work.

A change that breaks a rule gives a violation and no tree.

The lemmas at the end say what each operation has done when it succeeds (`attach_eq_ok`,
`absorb_eq_ok`, `add_eq_ok`, `remove_eq_ok`), and which nodes are there afterwards
(`node?_modify`, `node?_insert`).
-/

namespace CommandGrammar

namespace Tree

variable {κ : Type}

/-- Whether a redirect may lead to a place: to a node at which a line can end. -/
def isTarget (tree : Tree κ) (id : NodeId) : Bool :=
  (tree.node? id).any fun node => node.ending?.isSome

/-- The same tree with a change to the node at a place. -/
def modify (tree : Tree κ) (id : NodeId) (change : Node κ → Node κ) : Tree κ :=
  ⟨tree.nodes.modify id change⟩

/-- Puts a new node without children at the end of the array and below a parent. -/
def insert (tree : Tree κ) (parent : NodeId) (symbol : Symbol κ)
    (requirement : Option Requirement) : Tree κ :=
  let child : Node κ := { symbol? := some symbol, requirement }
  Tree.modify ⟨tree.nodes.push child⟩ parent fun node =>
    { node with children := node.children.insert symbol tree.size }

/-- Lets the node at a place absorb a symbol of its name. -/
def absorb (tree : Tree κ) (id : NodeId) (incoming : Symbol κ) : Except Violation (Tree κ) := do
  let node ← tree.node id
  match node.symbol? with
  | none => return tree
  | some symbol =>
    let symbol ← symbol.absorb (!node.children.order.isEmpty) incoming
    return tree.modify id fun node => { node with symbol? := some symbol }

/-- Puts a symbol below a parent that has no child of its name. -/
def attach (tree : Tree κ) (parent : NodeId) (owner : Node κ) (symbol : Symbol κ)
    (requirement : Option Requirement) : Except Violation (Tree κ) := do
  if owner.redirect?.isSome then throw .childUnderRedirect
  match symbol.ending?.bind Ending.redirect with
  | some target => unless tree.isTarget target do throw (.redirectTarget target)
  | none => pure ()
  return tree.insert parent symbol requirement

mutual

/-- Adds a spec below a parent, and says which node it has become. -/
def add (tree : Tree κ) (parent : NodeId) : Spec κ → Except Violation (Tree κ × NodeId)
  | ⟨symbol, requirement, children⟩ => do
    let owner ← tree.node parent
    match owner.children.byName.find? symbol.name with
    | some existing =>
      let merged ← tree.absorb existing symbol
      return (← merged.addAll existing children, existing)
    | none =>
      let attached ← tree.attach parent owner symbol requirement
      return (← attached.addAll tree.size children, tree.size)

/-- Adds specs below a parent, one after the other. -/
def addAll (tree : Tree κ) (parent : NodeId) : List (Spec κ) → Except Violation (Tree κ)
  | [] => return tree
  | spec :: specs => do
    let (tree, _) ← tree.add parent spec
    tree.addAll parent specs

end

/-- Takes the child of a name away from its parent, and says which node it was. -/
def remove (tree : Tree κ) (parent : NodeId) (name : String) :
    Except Violation (Tree κ × Option NodeId) := do
  match ← tree.child? parent name with
  | none => return (tree, none)
  | some id =>
    return (tree.modify parent fun node => { node with children := node.children.erase name id },
      some id)

/-! ### What the operations have done -/

variable {tree tree' : Tree κ} {parent id : NodeId}

theorem attach_eq_ok {owner : Node κ} {symbol : Symbol κ} {requirement : Option Requirement}
    (h : tree.attach parent owner symbol requirement = .ok tree') :
    owner.redirect? = none ∧
      (∀ target, symbol.ending?.bind Ending.redirect = some target → tree.isTarget target = true) ∧
      tree' = tree.insert parent symbol requirement := by
  simp only [attach, bind, Except.bind, pure, Except.pure, throw, throwThe,
    MonadExceptOf.throw] at h
  split at h
  · cases h
  rename_i ho
  refine ⟨by simpa using ho, ?_⟩
  split at h
  · rename_i target ht
    split at h
    · rename_i hv
      refine ⟨?_, (Except.ok.inj h).symm⟩
      intro other hother
      rw [ht] at hother
      exact Option.some.inj hother ▸ hv
    · cases h
  · rename_i ht
    refine ⟨?_, (Except.ok.inj h).symm⟩
    intro other hother
    rw [ht] at hother
    cases hother

theorem absorb_eq_ok {incoming : Symbol κ} (h : tree.absorb id incoming = .ok tree') :
    ∃ node, tree.node? id = some node ∧
      ((node.symbol? = none ∧ tree' = tree) ∨
        ∃ symbol result, node.symbol? = some symbol ∧
          symbol.absorb (!node.children.order.isEmpty) incoming = .ok result ∧
          tree' = tree.modify id fun node => { node with symbol? := some result }) := by
  obtain ⟨node, hn, h⟩ := exists_of_bind_eq_ok h
  refine ⟨node, node_eq_ok.1 hn, ?_⟩
  split at h
  · rename_i hs
    exact .inl ⟨hs, (Except.ok.inj h).symm⟩
  · rename_i symbol hs
    obtain ⟨result, hr, h⟩ := exists_of_bind_eq_ok h
    exact .inr ⟨symbol, result, hs, hr, (Except.ok.inj h).symm⟩

/-- A spec is either merged with the child of its name or becomes a new one, and then its children
are added there. -/
theorem add_eq_ok {spec : Spec κ} (h : tree.add parent spec = .ok (tree', id)) :
    ∃ owner, tree.node? parent = some owner ∧
      ((owner.children.byName.find? spec.name = some id ∧
          ∃ merged, tree.absorb id spec.symbol = .ok merged ∧
            merged.addAll id spec.children = .ok tree') ∨
        (owner.children.byName.find? spec.name = none ∧ id = tree.size ∧
          ∃ attached, tree.attach parent owner spec.symbol spec.requirement = .ok attached ∧
            attached.addAll id spec.children = .ok tree')) := by
  obtain ⟨symbol, requirement, specs⟩ := spec
  rw [add] at h
  obtain ⟨owner, ho, h⟩ := exists_of_bind_eq_ok h
  refine ⟨owner, node_eq_ok.1 ho, ?_⟩
  split at h
  · rename_i existing he
    obtain ⟨merged, hm, h⟩ := exists_of_bind_eq_ok h
    obtain ⟨added, ha, h⟩ := exists_of_bind_eq_ok h
    cases h
    exact .inl ⟨he, merged, hm, ha⟩
  · rename_i hn
    obtain ⟨attached, hm, h⟩ := exists_of_bind_eq_ok h
    obtain ⟨added, ha, h⟩ := exists_of_bind_eq_ok h
    cases h
    exact .inr ⟨hn, rfl, attached, hm, ha⟩

theorem addAll_cons_eq_ok {spec : Spec κ} {specs : List (Spec κ)}
    (h : tree.addAll parent (spec :: specs) = .ok tree') :
    ∃ added id, tree.add parent spec = .ok (added, id) ∧ added.addAll parent specs = .ok tree' := by
  rw [addAll] at h
  obtain ⟨⟨added, id⟩, ha, h⟩ := exists_of_bind_eq_ok h
  exact ⟨added, id, ha, h⟩

theorem remove_eq_ok {name : String} {id? : Option NodeId}
    (h : tree.remove parent name = .ok (tree', id?)) :
    ∃ owner, tree.node? parent = some owner ∧ owner.children.byName.find? name = id? ∧
      ((id? = none ∧ tree' = tree) ∨
        ∃ id, id? = some id ∧
          tree' = tree.modify parent fun node =>
            { node with children := node.children.erase name id }) := by
  obtain ⟨found, hf, h⟩ := exists_of_bind_eq_ok h
  unfold child? at hf
  cases ho : tree.node parent with
  | error violation =>
    rw [ho] at hf
    cases hf
  | ok owner =>
    rw [ho] at hf
    cases hf
    refine ⟨owner, node_eq_ok.1 ho, ?_⟩
    split at h
    · rename_i hn
      cases h
      exact ⟨hn, .inl ⟨rfl, rfl⟩⟩
    · rename_i id hs
      cases h
      exact ⟨hs, .inr ⟨id, rfl, rfl⟩⟩

/-! ### The nodes afterwards -/

theorem lt_size_of_node? {node : Node κ} (h : tree.node? id = some node) : id < tree.size :=
  (Array.getElem?_eq_some_iff.1 h).1

theorem exists_node?_of_lt_size (h : id < tree.size) : ∃ node, tree.node? id = some node :=
  ⟨_, Array.getElem?_eq_getElem h⟩

@[simp] theorem size_modify (tree : Tree κ) (id : NodeId) (change : Node κ → Node κ) :
    (tree.modify id change).size = tree.size := by
  simp [modify, size]

@[simp] theorem size_insert (tree : Tree κ) (parent : NodeId) (symbol : Symbol κ)
    (requirement : Option Requirement) :
    (tree.insert parent symbol requirement).size = tree.size + 1 := by
  simp [insert, modify, size]

theorem node?_modify (tree : Tree κ) (id other : NodeId) (change : Node κ → Node κ) :
    (tree.modify id change).node? other =
      if id = other then (tree.node? other).map change else tree.node? other := by
  simp only [modify, node?, Array.getElem?_modify]

/-- An insertion gives the place behind the last one to the new node, and changes no other node but
the parent. -/
theorem node?_insert (h : parent < tree.size) (symbol : Symbol κ)
    (requirement : Option Requirement) (other : NodeId) :
    (tree.insert parent symbol requirement).node? other =
      if other = tree.size then some { symbol? := some symbol, requirement }
      else if parent = other then
        (tree.node? other).map fun node =>
          { node with children := node.children.insert symbol tree.size }
      else tree.node? other := by
  have hp : parent ≠ tree.size := Nat.ne_of_lt h
  unfold size at h hp
  simp only [insert, node?_modify]
  simp only [node?, size, Array.getElem?_push]
  by_cases ho : other = tree.nodes.size
  · subst ho
    simp [hp]
  · simp [ho]

/-- A node after a change to one of them is the changed one or an old one. -/
theorem node?_modify_eq_some {id other : NodeId} {change : Node κ → Node κ} {node : Node κ}
    (h : (tree.modify id change).node? other = some node) :
    (other = id ∧ ∃ old, tree.node? id = some old ∧ node = change old) ∨
      (other ≠ id ∧ tree.node? other = some node) := by
  rw [node?_modify] at h
  split at h
  · rename_i e
    subst e
    obtain ⟨old, ho, rfl⟩ := Option.map_eq_some_iff.1 h
    exact .inl ⟨rfl, old, ho, rfl⟩
  · rename_i e
    exact .inr ⟨fun e' => e e'.symm, h⟩

/-- A node after an insertion is the new one, its parent, or an old one. -/
theorem node?_insert_eq_some {owner node : Node κ} {symbol : Symbol κ}
    {requirement : Option Requirement} {other : NodeId} (ho : tree.node? parent = some owner)
    (h : (tree.insert parent symbol requirement).node? other = some node) :
    (other = tree.size ∧ node = { symbol? := some symbol, requirement }) ∨
      (other = parent ∧
        node = { owner with children := owner.children.insert symbol tree.size }) ∨
      tree.node? other = some node := by
  rw [node?_insert (lt_size_of_node? ho)] at h
  split at h
  · rename_i e
    exact .inl ⟨e, (Option.some.inj h).symm⟩
  · split at h
    · rename_i e
      subst e
      rw [ho] at h
      exact .inr (.inl ⟨rfl, (Option.some.inj h).symm⟩)
    · exact .inr (.inr h)

end Tree

end CommandGrammar
