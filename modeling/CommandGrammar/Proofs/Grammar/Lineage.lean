import CommandGrammar.Proofs.Grammar.Adding
import CommandGrammar.Proofs.Grammar.Redirect

/-!
# What registrations leave in a grammar

Specs are added below the root, one after the other. The names of each of their lineages, from the
root on, lead to one node of the grammar (`Tree.At`), and several lineages may lead to the same node,
since specs are merged.

Main statement: what the specs leave in the grammar (`Tree.Registered.add`, for one spec added, and
`Tree.Registered.addAll`). What a node stands for and its requirement are those of the first lineage
that leads to it (`Tree.Registered.origin`), and whatever the later ones ask for is lost. Its command
is that of the one lineage among them that has a command (`Tree.Registered.commands`).

Apart from the redirects this is true of the nodes from any place of the array on, and of the specs
that were added since there were that many nodes (`Tree.RegisteredSince`).
-/

namespace CommandGrammar

variable {κ : Type}

/-! ### Lineages with the same path -/

namespace Spec

/-- The command of a spec. -/
def command? (spec : Spec κ) : Option κ := spec.symbol.ending?.bind Ending.command

/-- Whether the requirement of a spec accepts a context. -/
def accepts (spec : Spec κ) (context : Context) : Bool :=
  spec.requirement.all fun requirement => requirement context

/-- The first of some lineages with a path. -/
def firstAt (done : List (List (Spec κ))) (names : List String) : Option (List (Spec κ)) :=
  done.find? fun lineage => decide (path lineage = names)

/-- The command of the innermost spec of a lineage, if the lineage has a path. -/
def commandAt (names : List String) : List (Spec κ) → Option κ
  | [] => none
  | spec :: above => if path (spec :: above) = names then spec.command? else none

variable {spec : Spec κ} {above lineage : List (Spec κ)} {done : List (List (Spec κ))}
  {names : List String}

/-- The first lineage of a path stays the first one. -/
theorem firstAt_append_of_some (h : firstAt done names = some lineage)
    (others : List (List (Spec κ))) : firstAt (done ++ others) names = some lineage := by
  rw [firstAt, List.find?_append, show done.find? _ = some lineage from h, Option.some_or]

/-- A lineage that leads where none has led is the first one there. -/
theorem firstAt_append_of_new (hnew : ∀ other ∈ done, path other ≠ path lineage) :
    firstAt (done ++ [lineage]) (path lineage) = some lineage := by
  have hnone : done.find? (fun other => decide (path other = path lineage)) = none := by
    rw [List.find?_eq_none]
    intro other ho
    simpa using hnew other ho
  simp [firstAt, List.find?_append, hnone]

/-- With one more lineage the first one of a path is the old one, or that lineage if there was none. -/
theorem firstAt_append_cases (h : firstAt (done ++ [lineage]) names = some above) :
    firstAt done names = some above ∨
      (∀ other ∈ done, path other ≠ names) ∧ above = lineage := by
  cases hfirst : firstAt done names with
  | some first =>
    rw [firstAt_append_of_some hfirst] at h
    exact .inl h
  | none =>
    rw [firstAt, List.find?_append, show done.find? _ = none from hfirst, Option.none_or] at h
    refine .inr ⟨fun other ho => ?_, List.mem_singleton.1 (List.mem_of_find?_eq_some h)⟩
    simpa using List.find?_eq_none.1 hfirst other ho

theorem mem_of_firstAt (h : firstAt done names = some lineage) :
    lineage ∈ done ∧ path lineage = names :=
  ⟨List.mem_of_find?_eq_some h, by simpa using List.find?_some h⟩

theorem commandAt_eq_some_iff {command : κ} :
    commandAt names lineage = some command ↔
      path lineage = names ∧ lineage.head?.bind command? = some command := by
  cases lineage with
  | nil => simp [commandAt]
  | cons spec above =>
    unfold commandAt
    split
    · rename_i e
      simp [e]
    · rename_i e
      simp [e]

/-- Where no lineage has led there is no command. -/
theorem filterMap_commandAt_of_new (hnew : ∀ other ∈ done, path other ≠ names) :
    done.filterMap (commandAt names) = [] := by
  rw [List.filterMap_eq_nil_iff]
  intro other ho
  cases other with
  | nil => rfl
  | cons spec above => exact if_neg (hnew _ ho)

/-- The commands of a path with one more lineage. -/
theorem filterMap_commandAt_append (done : List (List (Spec κ))) (names : List String)
    (spec : Spec κ) (above : List (Spec κ)) :
    (done ++ [spec :: above]).filterMap (commandAt names) =
      done.filterMap (commandAt names) ++
        if path (spec :: above) = names then spec.command?.toList else [] := by
  rw [List.filterMap_append]
  congr 1
  unfold commandAt
  split
  · cases h : spec.command? <;> simp_all
  · simp_all

end Spec

theorem Symbol.isFlag_kind (symbol : Symbol κ) : symbol.kind.isFlag = symbol.isFlag := by
  rcases symbol with ⟨_ | _, _⟩ | _ <;> rfl

/-- Whether a node is a flag is a matter of its kind. -/
theorem Node.isFlag_eq (node : Node κ) :
    node.isFlag = (node.symbol?.map Symbol.kind).any Kind.isFlag := by
  rw [isFlag, Option.any_map]
  exact congrArg node.symbol?.any (funext fun symbol => (Symbol.isFlag_kind symbol).symm)

/-- The command of a symbol that has absorbed another one: there is at most one of the two. A flag has
none, and one that is absorbed into a flag is lost. -/
theorem Symbol.command_of_absorb {symbol incoming result : Symbol κ} {hasChildren : Bool}
    (h : symbol.absorb hasChildren incoming = .ok result) (hf : result.isFlag = false) :
    (result.ending?.bind Ending.command).toList =
      (symbol.ending?.bind Ending.command).toList ++
        (incoming.ending?.bind Ending.command).toList := by
  cases symbol with
  | flag c =>
    cases h
    cases hf
  | piece p ending =>
    cases incoming with
    | flag c =>
      cases h
      exact (List.append_nil _).symm
    | piece q other =>
      obtain ⟨absorbed, ha, rfl⟩ := exists_of_map_eq_ok h
      simp only [ending?, Option.bind_some]
      rcases Ending.command_of_absorb ha with ⟨hn, hc⟩ | ⟨hn, hc⟩
      · rw [hn, hc]
        exact (List.append_nil _).symm
      · rw [hn, hc]
        rfl

/-- A redirect of a symbol that has absorbed another one comes from one of the two. -/
theorem Symbol.redirect?_or_of_absorb {symbol incoming result : Symbol κ} {hasChildren : Bool}
    {target : NodeId} (h : symbol.absorb hasChildren incoming = .ok result)
    (hr : result.redirect? = some target) :
    symbol.redirect? = some target ∨ incoming.redirect? = some target := by
  cases symbol with
  | flag c =>
    cases h
    exact .inl hr
  | piece p ending =>
    cases incoming with
    | flag c =>
      cases h
      exact .inl hr
    | piece q other =>
      obtain ⟨absorbed, ha, rfl⟩ := exists_of_map_eq_ok h
      rcases Ending.redirect_of_absorb ha with ⟨-, he⟩ | ⟨-, -, he⟩
      · exact .inl (he.symm.trans hr)
      · exact .inr (he.symm.trans hr)

namespace Tree

variable {tree tree' : Tree κ} {parent id other : NodeId} {owner : Node κ} {name : String}
  {names others : List String}

/-! ### Where names lead -/

/-- Names, the last one first, lead from the root to a node. -/
inductive At (tree : Tree κ) : List String → NodeId → Prop where
  /-- No names lead to the root. -/
  | root : At tree [] root
  /-- One more name leads to the child of that name. -/
  | child {names : List String} {parent id : NodeId} {owner : Node κ} {name : String} :
      At tree names parent → tree.node? parent = some owner →
      owner.children.byName.find? name = some id → At tree (name :: names) id

theorem At.exists_parent (h : tree.At (name :: names) id) :
    ∃ parent owner, tree.At names parent ∧ tree.node? parent = some owner ∧
      owner.children.byName.find? name = some id := by
  cases h with
  | child hp ho hid => exact ⟨_, _, hp, ho, hid⟩

/-- The same names from the first one on lead there from the root. -/
theorem at_iff_leads : tree.At names id ↔ tree.Leads root names.reverse id := by
  constructor
  · intro h
    induction h with
    | root => exact leads_nil_iff.2 rfl
    | child _ ho hid ih =>
      rw [List.reverse_cons]
      exact leads_append_singleton_iff.2 ⟨_, _, ih, ho, hid⟩
  · intro h
    induction names generalizing id with
    | nil =>
      obtain rfl := leads_nil_iff.1 h
      exact .root
    | cons name names ih =>
      rw [List.reverse_cons] at h
      obtain ⟨parent, owner, hp, ho, hid⟩ := leads_append_singleton_iff.1 h
      exact .child (ih hp) ho hid

/-- Names lead to one node only. -/
theorem At.id_eq (h : tree.At names id) (h' : tree.At names other) : id = other :=
  (at_iff_leads.1 h).id_eq (at_iff_leads.1 h')

/-- Only one sequence of names leads to a node. -/
theorem At.names_eq (hw : tree.WellFormed) (h : tree.At names id) (h' : tree.At others id) :
    names = others :=
  List.reverse_inj.1 ((at_iff_leads.1 h).path_eq hw (at_iff_leads.1 h'))

/-- Names that stay lead to the same node from the root on. -/
theorem At.stay (h : tree.At names id) (hs : tree.NamesStay tree') : tree'.At names id :=
  at_iff_leads.2 (hs _ _ _ (at_iff_leads.1 h))

theorem At.exists_node? (hw : tree.WellFormed) (h : tree.At names id) :
    ∃ node, tree.node? id = some node := by
  cases h with
  | root => exact exists_node?_of_lt_size hw.root
  | child _ ho hid =>
    exact exists_node?_of_lt_size (hw.bounds_of_isChild (hw.isChild_of_byName ho hid).1).2

/-- A name that leads to a child, behind names that lead to its parent, leads to it. -/
theorem At.isChild (hw : tree.WellFormed) (h : tree.At names parent)
    (hc : tree.IsChild parent id) (hname : tree.name? id = some name) :
    tree.At (name :: names) id := by
  obtain ⟨owner, ho, hm⟩ := hc
  exact .child h ho (((hw.indexed parent owner ho).byName name id).2 ⟨hm, hname⟩)

/-- What a node stands for does not matter for where names lead. -/
theorem at_modify_symbol {symbol : Symbol κ} :
    (tree.modify other fun node => { node with symbol? := some symbol }).At names id ↔
      tree.At names id := by
  rw [at_iff_leads, at_iff_leads, leads_modify_symbol]

section Insert

variable {symbol : Symbol κ} {requirement : Option Requirement}
  (ho : tree.node? parent = some owner) (hf : owner.children.byName.find? symbol.name = none)

include ho hf in
/-- Names lead to the new node if they are those of its parent and its own. -/
theorem at_insert_cases (h : (tree.insert parent symbol requirement).At names id) :
    tree.At names id ∨
      ∃ above, tree.At above parent ∧ names = symbol.name :: above ∧ id = tree.size := by
  rcases (leads_insert_iff ho hf).1 (at_iff_leads.1 h) with h | ⟨front, hp, e, rfl⟩
  · exact .inl (at_iff_leads.2 h)
  · refine .inr ⟨front.reverse, at_iff_leads.2 (by simpa using hp), ?_, rfl⟩
    rw [← List.reverse_reverse names, e, List.reverse_append, List.reverse_singleton,
      List.singleton_append]

include ho hf in
/-- Before it is there, no names lead to the new node. -/
theorem not_at_of_fresh (hp : tree.At names parent) : ¬ tree.At (symbol.name :: names) id := by
  intro h
  rw [at_iff_leads, List.reverse_cons] at h
  exact not_resolves_of_fresh (at_iff_leads.1 hp) ho hf ⟨id, h⟩

include ho hf in
/-- Afterwards, those of its parent and its own do. -/
theorem at_insert_new (hp : tree.At names parent) :
    (tree.insert parent symbol requirement).At (symbol.name :: names) tree.size := by
  rw [at_iff_leads, List.reverse_cons]
  exact (leads_insert_iff ho hf).2 (.inr ⟨_, at_iff_leads.1 hp, rfl, rfl⟩)

include ho in
/-- A node to which names led has only got a child, if anything. -/
theorem exists_old_of_insert {node : Node κ} (hw : tree.WellFormed) (h : tree.At names id)
    (hn : (tree.insert parent symbol requirement).node? id = some node) :
    ∃ old, tree.node? id = some old ∧ node.symbol? = old.symbol? ∧
      node.requirement = old.requirement := by
  obtain ⟨rfl, -⟩ | ⟨rfl, rfl⟩ | hn := node?_insert_eq_some ho hn
  · obtain ⟨node, hn⟩ := h.exists_node? hw
    exact absurd (lt_size_of_node? hn) (Nat.lt_irrefl _)
  · exact ⟨owner, ho, rfl, rfl⟩
  · exact ⟨node, hn, rfl, rfl⟩

end Insert

/-! ### Where redirects come from -/

/-- A redirect after a merge was there before, or is that of the spec that was merged. -/
theorem redirect?_modify_symbol_cases {node : Node κ} {symbol incoming result : Symbol κ}
    {hasChildren : Bool} {target : NodeId} (hn : tree.node? id = some node)
    (hs : node.symbol? = some symbol) (hr : symbol.absorb hasChildren incoming = .ok result)
    (h : (tree.modify id fun node => { node with symbol? := some result }).redirect? other =
      some target) :
    tree.redirect? other = some target ∨ id = other ∧ incoming.redirect? = some target := by
  rw [redirect?, symbol?_modify_symbol tree (lt_size_of_node? hn)] at h
  split at h
  · rename_i e
    subst e
    rcases Symbol.redirect?_or_of_absorb hr h with hold | hnew
    · rw [redirect?, symbol?_of_node? hn, hs]
      exact .inl hold
    · exact .inr ⟨rfl, hnew⟩
  · exact .inl h

/-- A redirect after an insertion was there before, or is that of the new node. -/
theorem redirect?_insert_cases {symbol : Symbol κ} {requirement : Option Requirement}
    {target : NodeId} (ho : tree.node? parent = some owner)
    (h : (tree.insert parent symbol requirement).redirect? other = some target) :
    tree.redirect? other = some target ∨
      other = tree.size ∧ symbol.redirect? = some target := by
  rw [redirect?, symbol?_insert (lt_size_of_node? ho)] at h
  split at h
  · rename_i e
    exact .inr ⟨e, h⟩
  · exact .inl h

/-! ### What is left of the lineages -/

/-- The nodes of a grammar from some place on are what the specs with some lineages have left when
they were added below the root, in the order of the lineages. -/
structure RegisteredSince (tree : Tree κ) (start : NodeId) (done : List (List (Spec κ))) : Prop where
  /-- The grammar is well formed. -/
  wellFormed : tree.WellFormed
  /-- Every lineage leads to a node. -/
  placed : ∀ lineage ∈ done, ∃ id, tree.At (Spec.path lineage) id
  /-- What a node stands for and its requirement are those of the first lineage that leads there. -/
  origin : ∀ name names id node, tree.At (name :: names) id → start ≤ id →
    tree.node? id = some node →
    ∃ spec above, Spec.firstAt done (name :: names) = some (spec :: above) ∧
      tree.kind? id = some spec.symbol.kind ∧ node.requirement = spec.requirement
  /-- Of all lineages that lead to a literal or an argument only the one of its command has one. -/
  commands : ∀ name names id node, tree.At (name :: names) id → start ≤ id →
    tree.node? id = some node → node.isFlag = false →
      done.filterMap (Spec.commandAt (name :: names)) = node.command?.toList

section Lineages

variable {done : List (List (Spec κ))} {spec : Spec κ} {above : List (Spec κ)} {start : NodeId}

namespace RegisteredSince

/-- From its end on there is nothing in a grammar yet. -/
theorem refl (hw : tree.WellFormed) : tree.RegisteredSince tree.size [] where
  wellFormed := hw
  placed _ hl := nomatch hl
  origin _ _ _ _ _ hstart hn := absurd (lt_size_of_node? hn) (Nat.not_lt_of_le hstart)
  commands _ _ _ _ _ hstart hn := absurd (lt_size_of_node? hn) (Nat.not_lt_of_le hstart)

/-- A spec that is merged leaves its command, and nothing else of what is at stake here. -/
theorem absorb (h : tree.RegisteredSince start done) (hat : tree.At (Spec.path (spec :: above)) id)
    (ha : tree.absorb id spec.symbol = .ok tree') :
    tree'.RegisteredSince start (done ++ [spec :: above]) := by
  obtain ⟨parent, owner, -, ho, hid⟩ := hat.exists_parent
  obtain ⟨node, symbol, result, hn, hs, hr, rfl⟩ := h.wellFormed.exists_of_absorb ho hid ha
  have hc : Change tree _ := .absorb ho hid hn hs hr
  refine ⟨h.wellFormed.change hc, ?placed, ?origin, ?commands⟩
  case placed =>
    intro lineage hl
    rcases List.mem_append.1 hl with hl | hl
    · obtain ⟨other, ho⟩ := h.placed lineage hl
      exact ⟨other, at_modify_symbol.2 ho⟩
    · obtain rfl := List.mem_singleton.1 hl
      exact ⟨id, at_modify_symbol.2 hat⟩
  case origin =>
    intro name names other node' hat' hstart hn'
    obtain ⟨old, hold, hreq⟩ : ∃ old, tree.node? other = some old ∧
        node'.requirement = old.requirement := by
      obtain ⟨rfl, old, hold, rfl⟩ | ⟨-, hn'⟩ := node?_modify_eq_some hn'
      · exact ⟨old, hold, rfl⟩
      · exact ⟨node', hn', rfl⟩
    obtain ⟨first, enclosing, hfirst, hkind, hrequirement⟩ :=
      h.origin name names other old (at_modify_symbol.1 hat') hstart hold
    exact ⟨first, enclosing, Spec.firstAt_append_of_some hfirst _,
      (hc.kind?_eq (lt_size_of_node? hold)).trans hkind, hreq.trans hrequirement⟩
  case commands =>
    -- the node that is merged has the commands of both, and all others keep theirs
    intro name names other node' hat' hstart hn' hf
    have hold := at_modify_symbol.1 hat'
    rw [Spec.filterMap_commandAt_append]
    obtain ⟨rfl, old, ho, rfl⟩ | ⟨hne, hn'⟩ := node?_modify_eq_some hn'
    · obtain rfl := Option.some.inj (hn.symm.trans ho)
      have hresult : result.isFlag = false := hf
      have hflag : node.isFlag = false := by
        rw [Node.isFlag, hs, Option.any_some, ← Symbol.isFlag_kind, ← Symbol.kind_of_absorb hr,
          Symbol.isFlag_kind, hresult]
      have hcommand := Symbol.command_of_absorb hr hresult
      rw [if_pos (hat.names_eq h.wellFormed hold), h.commands name names other node hold hstart hn hflag,
        Node.command?, Node.ending?, hs]
      exact hcommand.symm
    · rw [if_neg, List.append_nil, h.commands name names other node' hold hstart hn' hf]
      intro e
      exact hne (hold.id_eq (e ▸ hat))

/-- A spec that becomes a new node leaves all of itself. -/
theorem attach (h : tree.RegisteredSince start done) (hp : tree.At (Spec.path above) parent)
    (ho : tree.node? parent = some owner)
    (hf : owner.children.byName.find? spec.name = none)
    (ha : tree.attach parent owner spec.symbol spec.requirement = .ok tree') :
    tree'.RegisteredSince start (done ++ [spec :: above]) := by
  obtain ⟨-, -, rfl⟩ := attach_eq_ok ha
  have hlt := lt_size_of_node? ho
  have hstay := namesStay_insert ho hf spec.requirement
  have hat : (tree.insert parent spec.symbol spec.requirement).At (Spec.path (spec :: above))
      tree.size :=
    at_insert_new ho hf hp
  have hfresh : ∀ id, ¬ tree.At (Spec.path (spec :: above)) id := fun id =>
    not_at_of_fresh ho hf hp
  have hnew : ∀ other ∈ done, Spec.path other ≠ Spec.path (spec :: above) := by
    intro other hother e
    obtain ⟨id, hid⟩ := h.placed other hother
    exact hfresh id (e ▸ hid)
  have hkind := kind?_insert hlt spec.symbol spec.requirement
  -- in each case names lead to a node that was there or to the new one
  refine ⟨h.wellFormed.insert _ ho hf, ?placed, ?origin, ?commands⟩
  case placed =>
    intro lineage hl
    rcases List.mem_append.1 hl with hl | hl
    · obtain ⟨id, hid⟩ := h.placed lineage hl
      exact ⟨id, hid.stay hstay⟩
    · obtain rfl := List.mem_singleton.1 hl
      exact ⟨_, hat⟩
  case origin =>
    intro name names id node hid hstart hn
    rcases at_insert_cases ho hf hid with hid | ⟨enclosing, hparent, e, rfl⟩
    · obtain ⟨old, hn, -, hreq⟩ := exists_old_of_insert ho h.wellFormed hid hn
      obtain ⟨first, enclosing, hfirst, hk, hrequirement⟩ := h.origin name names id old hid hstart hn
      refine ⟨first, enclosing, Spec.firstAt_append_of_some hfirst _, ?_, hreq.trans hrequirement⟩
      rw [hkind, if_neg (Nat.ne_of_lt (lt_size_of_node? hn)), hk]
    · rw [node?_insert hlt, if_pos rfl] at hn
      obtain rfl := Option.some.inj hn
      obtain rfl := hparent.names_eq h.wellFormed hp
      refine ⟨spec, above, ?_, by rw [hkind, if_pos rfl], rfl⟩
      rw [show name :: names = Spec.path (spec :: above) from e]
      exact Spec.firstAt_append_of_new hnew
  case commands =>
    intro name names id node hid hstart hn hflag
    rw [Spec.filterMap_commandAt_append]
    rcases at_insert_cases ho hf hid with hid | ⟨enclosing, hparent, e, rfl⟩
    · obtain ⟨old, hn, hs, -⟩ := exists_old_of_insert ho h.wellFormed hid hn
      rw [Node.isFlag, hs] at hflag
      rw [if_neg, List.append_nil, h.commands name names id old hid hstart hn hflag, Node.command?,
        Node.ending?, ← hs]
      · rfl
      · intro e
        exact hfresh id (e ▸ hid)
    · rw [node?_insert hlt, if_pos rfl] at hn
      obtain rfl := Option.some.inj hn
      obtain rfl := hparent.names_eq h.wellFormed hp
      rw [show name :: names = Spec.path (spec :: above) from e,
        Spec.filterMap_commandAt_of_new hnew, if_pos rfl]
      rfl

/-- Both steps of adding specs below the root keep that. -/
theorem keptByAdding (start : NodeId) :
    KeptByAdding root fun done (tree : Tree κ) => tree.RegisteredSince start done where
  absorb h hp ho hid ha := h.absorb (.child (at_iff_leads.2 hp) ho hid) ha
  attach h hp _ ho hf ha := h.attach (at_iff_leads.2 hp) ho hf ha

end RegisteredSince

/-- A grammar holds what the specs with some lineages have left when they were added to the empty
one, in the order of the lineages. -/
structure Registered (tree : Tree κ) (done : List (List (Spec κ))) : Prop where
  /-- The grammar is well formed. -/
  wellFormed : tree.WellFormed
  /-- Every lineage leads to a node. -/
  placed : ∀ lineage ∈ done, ∃ id, tree.At (Spec.path lineage) id
  /-- What a node stands for and its requirement are those of the first lineage that leads there. -/
  origin : ∀ name names id node, tree.At (name :: names) id → tree.node? id = some node →
    ∃ spec above, Spec.firstAt done (name :: names) = some (spec :: above) ∧
      tree.kind? id = some spec.symbol.kind ∧ node.requirement = spec.requirement
  /-- Of all lineages that lead to a literal or an argument only the one of its command has one. -/
  commands : ∀ name names id node, tree.At (name :: names) id → tree.node? id = some node →
    node.isFlag = false →
      done.filterMap (Spec.commandAt (name :: names)) = node.command?.toList
  /-- Every redirect is one of a spec. -/
  redirects : ∀ id target, tree.redirect? id = some target →
    ∃ lineage ∈ done, ∃ spec ∈ lineage, spec.symbol.redirect? = some target

namespace Registered

/-- All nodes are what the specs have left. -/
theorem since (h : tree.Registered done) : tree.RegisteredSince 0 done where
  wellFormed := h.wellFormed
  placed := h.placed
  origin name names id node hat _ hn := h.origin name names id node hat hn
  commands name names id node hat _ hn hf := h.commands name names id node hat hn hf

theorem of_since (h : tree.RegisteredSince 0 done) (hredirects : ∀ id target,
    tree.redirect? id = some target →
      ∃ lineage ∈ done, ∃ spec ∈ lineage, spec.symbol.redirect? = some target) :
    tree.Registered done where
  wellFormed := h.wellFormed
  placed := h.placed
  origin name names id node hat hn := h.origin name names id node hat (Nat.zero_le id) hn
  commands name names id node hat hn hf := h.commands name names id node hat (Nat.zero_le id) hn hf
  redirects := hredirects

theorem empty : (Tree.empty : Tree κ).Registered [] := by
  have hat : ∀ {name names id}, ¬ (Tree.empty : Tree κ).At (name :: names) id := by
    intro name names id h
    obtain ⟨parent, owner, -, ho, hid⟩ := h.exists_parent
    obtain rfl : parent = Tree.root := Nat.lt_one_iff.1 (lt_size_of_node? ho)
    obtain rfl := Option.some.inj ho
    cases hid
  refine ⟨.empty, nofun, fun _ _ _ _ h => absurd h hat, fun _ _ _ _ h => absurd h hat, ?_⟩
  intro id target hr
  obtain ⟨symbol, hs, -⟩ := Option.bind_eq_some_iff.1 hr
  obtain rfl : id = Tree.root := Nat.lt_one_iff.1 (lt_size_of_symbol? hs)
  cases hs

/-- A spec that is merged leaves its command and its redirect, and no more. -/
theorem absorb (h : tree.Registered done) (hat : tree.At (Spec.path (spec :: above)) id)
    (ha : tree.absorb id spec.symbol = .ok tree') :
    tree'.Registered (done ++ [spec :: above]) := by
  refine of_since (h.since.absorb hat ha) fun other target hredirect => ?_
  obtain ⟨parent, owner, -, ho, hid⟩ := hat.exists_parent
  obtain ⟨node, symbol, result, hn, hs, hr, rfl⟩ := h.wellFormed.exists_of_absorb ho hid ha
  rcases redirect?_modify_symbol_cases hn hs hr hredirect with hold | ⟨-, hnew⟩
  · obtain ⟨lineage, hl, hspec⟩ := h.redirects other target hold
    exact ⟨lineage, List.mem_append_left _ hl, hspec⟩
  · exact ⟨_, List.mem_append_right _ List.mem_cons_self, spec, List.mem_cons_self, hnew⟩

/-- A spec that becomes a new node leaves all of itself. -/
theorem attach (h : tree.Registered done) (hp : tree.At (Spec.path above) parent)
    (ho : tree.node? parent = some owner)
    (hf : owner.children.byName.find? spec.name = none)
    (ha : tree.attach parent owner spec.symbol spec.requirement = .ok tree') :
    tree'.Registered (done ++ [spec :: above]) := by
  refine of_since (h.since.attach hp ho hf ha) fun id target hredirect => ?_
  obtain ⟨-, -, rfl⟩ := attach_eq_ok ha
  rcases redirect?_insert_cases ho hredirect with hold | ⟨-, hnew⟩
  · obtain ⟨lineage, hl, hspec⟩ := h.redirects id target hold
    exact ⟨lineage, List.mem_append_left _ hl, hspec⟩
  · exact ⟨_, List.mem_append_right _ List.mem_cons_self, spec, List.mem_cons_self, hnew⟩

/-- Both steps of adding specs below the root keep what the lineages have left. -/
theorem keptByAdding : KeptByAdding root fun done (tree : Tree κ) => tree.Registered done where
  absorb h hp ho hid ha := h.absorb (.child (at_iff_leads.2 hp) ho hid) ha
  attach h hp _ ho hf ha := h.attach (at_iff_leads.2 hp) ho hf ha

/-- **What a spec leaves when it is added below the root.** -/
theorem add (h : tree.Registered done) (ha : tree.add root spec = .ok (tree', id)) :
    tree'.Registered (done ++ spec.lineages []) :=
  (keptByAdding.add h (leads_nil_iff.2 rfl) (.inl rfl) ha).1

/-- What several specs leave. -/
theorem addAll {specs : List (Spec κ)} (h : tree.Registered done)
    (ha : tree.addAll root specs = .ok tree') :
    tree'.Registered (done ++ Spec.lineagesAll [] specs) :=
  (keptByAdding.addAll h (leads_nil_iff.2 rfl) (.inl rfl) ha).1

end Registered

end Lineages

end Tree

end CommandGrammar
