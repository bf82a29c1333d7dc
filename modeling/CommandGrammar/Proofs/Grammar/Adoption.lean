import CommandGrammar.Proofs.Grammar.Union

/-!
# What becomes of commands and redirects

A spec that comes second at its names is merged with the node that is there, and its command and its
redirect should be taken over by that node or be refused. A literal or an argument does so, but a
flag has no ending and drops both without a word. Nodes are told apart by name alone, and the name of
a flag may be that of a literal, so there is a grammar in which a command is lost
(`Tree.exists_lost_command`).

Main statement: `Tree.keepsEndings_iff_of_add`. After a spec was added, every one of its endings is
found at its names exactly if none of them came second to a flag (`Tree.FlagFirst`). No ending is
lost if no spec that has one has the name of a flag.

What is carried along while the specs are added are two facts about the names that are done
(`Tree.Adopted`): what they lead to is of the kind of the first who came there, and has the endings
of all that came, unless it is a flag.
-/

namespace CommandGrammar

variable {κ : Type}

/-! ### One ending in another -/

/-- Whether a command or a redirect was given to a spec. -/
def Spec.hasEnding (spec : Spec κ) : Bool := spec.command?.isSome || spec.symbol.redirect?.isSome

/-- A node has the command and the redirect of a spec, as far as the spec has them. -/
structure Node.Carries (node : Node κ) (spec : Spec κ) : Prop where
  /-- The command of the spec is that of the node. -/
  command : ∀ command, spec.command? = some command → node.command? = some command
  /-- The redirect of the spec is that of the node. -/
  redirect : ∀ target, spec.symbol.redirect? = some target → node.redirect? = some target

theorem Node.Keeps.isFlag_eq {old new : Node κ} (h : old.Keeps new) : new.isFlag = old.isFlag := by
  rw [Node.isFlag_eq, Node.isFlag_eq, h.kind]

/-- What a node has taken over stays with it. -/
theorem Node.Carries.keep {old new : Node κ} {spec : Spec κ} (h : old.Carries spec)
    (hk : old.Keeps new) : new.Carries spec where
  command command hc := hk.command command (h.command command hc)
  redirect target hr := hk.redirect target (h.redirect target hr)

theorem Node.carries_self (spec : Spec κ) :
    Node.Carries { symbol? := some spec.symbol, requirement := spec.requirement } spec where
  command _ hc := hc
  redirect _ hr := hr

/-- A node without an ending has nothing of a spec that has one. -/
theorem Node.Carries.hasEnding_eq_false {node : Node κ} {spec : Spec κ} (h : node.Carries spec)
    (hf : node.isFlag = true) : spec.hasEnding = false := by
  obtain ⟨symbol, hs, hflag⟩ := (Option.any_eq_true _ _).1 hf
  have hnone : node.ending? = none := by
    rw [Node.ending?, hs]
    cases symbol with
    | piece p ending => cases hflag
    | flag c => rfl
  have hcommand : spec.command? = none := by
    by_contra hne
    obtain ⟨command, hc⟩ := Option.ne_none_iff_exists'.1 hne
    have := h.command command hc
    rw [Node.command?, hnone] at this
    cases this
  have hredirect : spec.symbol.redirect? = none := by
    by_contra hne
    obtain ⟨target, hr⟩ := Option.ne_none_iff_exists'.1 hne
    have := h.redirect target hr
    rw [Node.redirect?, hnone] at this
    cases this
  rw [Spec.hasEnding, hcommand, hredirect]
  rfl

/-- No spec without a command or a redirect is owed anything. -/
theorem Node.carries_of_hasEnding_eq_false {spec : Spec κ} (h : spec.hasEnding = false)
    (node : Node κ) : node.Carries spec := by
  rw [Spec.hasEnding, Bool.or_eq_false_iff] at h
  obtain ⟨hcommand, hredirect⟩ := h
  constructor
  · intro command hc
    rw [hc] at hcommand
    cases hcommand
  · intro target hr
    rw [hr] at hredirect
    cases hredirect

/-- A redirect that comes in is set. -/
theorem Symbol.redirect?_of_absorb_of_incoming {symbol incoming result : Symbol κ}
    {hasChildren : Bool} {target : NodeId} (h : symbol.absorb hasChildren incoming = .ok result)
    (hf : result.isFlag = false) (hr : incoming.redirect? = some target) :
    result.redirect? = some target := by
  cases symbol with
  | flag c =>
    cases h
    cases hf
  | piece p ending =>
    cases incoming with
    | flag c => cases hr
    | piece q other =>
      obtain ⟨absorbed, ha, rfl⟩ := exists_of_map_eq_ok h
      rcases Ending.redirect_of_absorb ha with ⟨hn, -⟩ | ⟨-, -, he⟩
      · exact absurd (hn.symm.trans hr) (by simp)
      · exact he.trans hr

/-- A node that absorbs the symbol of a spec takes over its command and its redirect, unless it is a
flag. -/
theorem Node.carries_of_absorb {node : Node κ} {symbol result : Symbol κ} {spec : Spec κ}
    {hasChildren : Bool} (h : symbol.absorb hasChildren spec.symbol = .ok result)
    (hf : result.isFlag = false) : Node.Carries { node with symbol? := some result } spec where
  command command hc := by
    have htoList := Symbol.command_of_absorb h hf
    rw [show spec.symbol.ending?.bind Ending.command = some command from hc] at htoList
    change result.ending?.bind Ending.command = some command
    cases hr : result.ending?.bind Ending.command with
    | none => simp [hr] at htoList
    | some other =>
      rw [hr] at htoList
      cases hs : symbol.ending?.bind Ending.command with
      | none => simpa [hs] using htoList
      | some old => simp [hs] at htoList
  redirect _ hr := Symbol.redirect?_of_absorb_of_incoming h hf hr

namespace Tree

variable {tree tree' before now later : Tree κ} {base parent id : NodeId} {spec : Spec κ}
  {done : List (List (Spec κ))}

/-! ### Who came first -/

/-- Every spec in one that was added below a node has left its command and its redirect at the node
to which its names lead. -/
def KeepsEndings (tree : Tree κ) (parent : NodeId) (spec : Spec κ) : Prop :=
  ∀ inner above, inner :: above ∈ spec.lineages [] →
    ∃ id node, tree.Leads parent (Spec.names (inner :: above)) id ∧ tree.node? id = some node ∧
      node.Carries inner

/-- The first who came to some names below a node, the last name first, is a flag: it was there
already, or else it is the first one with these names in some lineages. -/
def FlagFirst (tree : Tree κ) (parent : NodeId) (done : List (List (Spec κ)))
    (names : List String) : Prop :=
  (∃ id, tree.Leads parent names.reverse id ∧ tree.hasKind Kind.isFlag id = true) ∨
    ¬ tree.Resolves parent names.reverse ∧
      ∃ first above, Spec.firstAt done names = some (first :: above) ∧ first.symbol.isFlag = true

theorem hasKind_isFlag_of_node? {node : Node κ} (hn : tree.node? id = some node) :
    tree.hasKind Kind.isFlag id = node.isFlag := by
  rw [hasKind, kind?, symbol?_of_node? hn, Node.isFlag_eq]

theorem NodesKeep.kind?_eq (h : before.NodesKeep now) {node : Node κ}
    (hn : before.node? id = some node) : now.kind? id = before.kind? id := by
  obtain ⟨new, hnew, hkeeps⟩ := h id node hn
  rw [kind?, symbol?_of_node? hnew, hkeeps.kind, kind?, symbol?_of_node? hn]

/-- The first of some lineages with a name has that name. -/
theorem name_eq_of_firstAt {inner first : Spec κ} {above others : List (Spec κ)}
    (h : Spec.firstAt done (Spec.path (inner :: above)) = some (first :: others)) :
    first.name = inner.name := by
  have hpath := List.find?_some h
  exact (List.cons.inj (of_decide_eq_true hpath)).1

/-- Only a spec with the name of a flag comes second to one. -/
theorem FlagFirst.exists_name (hw : tree.WellFormed) {inner : Spec κ} {above : List (Spec κ)}
    (h : tree.FlagFirst parent done (Spec.path (inner :: above))) :
    ∃ c, inner.name = (Kind.flag c).name := by
  rcases h with ⟨id, hl, hk⟩ | ⟨-, first, others, hfirst, hflag⟩
  · obtain ⟨kind, hkind, hflag⟩ := (Option.any_eq_true _ _).1 hk
    cases kind with
    | literal name => cases hflag
    | argument a => cases hflag
    | flag c =>
      rw [show (Spec.path (inner :: above)).reverse = Spec.names above ++ [inner.name] from
        Spec.names_cons inner above] at hl
      obtain ⟨owner, node, -, ho, hid⟩ := leads_append_singleton_iff.1 hl
      have hname := (hw.isChild_of_byName ho hid).2
      rw [name?, hkind] at hname
      exact ⟨c, (Option.some.inj hname).symm⟩
  · rw [← name_eq_of_firstAt hfirst, Spec.name, ← Symbol.name_kind]
    cases hs : first.symbol with
    | piece p ending =>
      rw [hs] at hflag
      cases hflag
    | flag c => exact ⟨c, rfl⟩

/-! ### One lineage after the other -/

/-- What has become of the specs that were added below a node so far. -/
structure Adopted (before : Tree κ) (base : NodeId) (done : List (List (Spec κ)))
    (now : Tree κ) : Prop where
  /-- The paths of the specs have been added. -/
  grown : before.Grown base (done.map Spec.names) now
  /-- A node that is new is of the kind of the first spec with its names. -/
  origin : ∀ names id, now.Leads base names.reverse id → before.Resolves base names.reverse ∨
    ∃ first above, Spec.firstAt done names = some (first :: above) ∧
      now.kind? id = some first.symbol.kind
  /-- The node to which the names of a spec lead has taken over its ending, unless it is a flag. -/
  adopts : ∀ inner above, inner :: above ∈ done → ∃ id node,
    now.Leads base (Spec.names (inner :: above)) id ∧ now.node? id = some node ∧
      (node.isFlag = false → node.Carries inner)

namespace Adopted

theorem refl (hw : tree.WellFormed) : tree.Adopted base [] tree where
  grown := .refl hw
  origin _ id hl := .inl ⟨id, hl⟩
  adopts _ _ h := nomatch h

/-- What was taken over stays where it is. -/
theorem adopts_keep (h : before.Adopted base done now) (hs : now.NamesStay later)
    (hk : now.NodesKeep later) {inner : Spec κ} {above : List (Spec κ)}
    (hm : inner :: above ∈ done) : ∃ id node,
      later.Leads base (Spec.names (inner :: above)) id ∧ later.node? id = some node ∧
        (node.isFlag = false → node.Carries inner) := by
  obtain ⟨id, node, hl, hn, hcarries⟩ := h.adopts inner above hm
  obtain ⟨new, hnew, hkeeps⟩ := hk id node hn
  refine ⟨id, new, hs _ _ _ hl, hnew, fun hf => ?_⟩
  exact (hcarries (hkeeps.isFlag_eq.symm.trans hf)).keep hkeeps

variable {above : List (Spec κ)} {owner : Node κ}

/-- A spec that is merged leaves its ending, and the first ones are those that were. -/
theorem absorb (h : before.Adopted base done now) (hp : now.Leads base (Spec.names above) parent)
    (ho : now.node? parent = some owner) (hid : owner.children.byName.find? spec.name = some id)
    (ha : now.absorb id spec.symbol = .ok later) :
    before.Adopted base (done ++ [spec :: above]) later := by
  have hat : now.Leads base (Spec.names (spec :: above)) id := by
    rw [Spec.names_cons]
    exact leads_append_singleton_iff.2 ⟨parent, owner, hp, ho, hid⟩
  have hgrown := (Grown.keptByAdding before base).absorb h.grown hp ho hid ha
  obtain ⟨node, symbol, result, hn, hs, hr, rfl⟩ := h.grown.wellFormed.exists_of_absorb ho hid ha
  refine ⟨hgrown, ?origin, ?adopts⟩
  case origin =>
    intro names other hl
    refine (h.origin names other (leads_modify_symbol.1 hl)).imp_right ?_
    rintro ⟨first, others, hfirst, hkind⟩
    refine ⟨first, others, Spec.firstAt_append_of_some hfirst _, ?_⟩
    rw [kind?_modify_symbol hn hs (Symbol.kind_of_absorb hr), hkind]
  case adopts =>
    intro inner enclosing hm
    rcases List.mem_append.1 hm with hm | hm
    · exact h.adopts_keep (namesStay_modify_symbol now id result)
        (nodesKeep_modify_symbol hn hs hr) hm
    · obtain ⟨rfl, rfl⟩ := List.cons.inj (List.mem_singleton.1 hm)
      refine ⟨id, _, leads_modify_symbol.2 hat, by rw [node?_modify, if_pos rfl, hn]; rfl, ?_⟩
      exact fun hf => Node.carries_of_absorb hr hf

/-- A spec that becomes a new node is the first one with its names, and leaves all of itself. -/
theorem attach (h : before.Adopted base done now) (hp : now.Leads base (Spec.names above) parent)
    (habove : above = [] ∨ above ∈ done) (ho : now.node? parent = some owner)
    (hf : owner.children.byName.find? spec.name = none)
    (ha : now.attach parent owner spec.symbol spec.requirement = .ok later) :
    before.Adopted base (done ++ [spec :: above]) later := by
  have hgrown := (Grown.keptByAdding before base).attach h.grown hp habove ho hf ha
  obtain ⟨-, -, rfl⟩ := attach_eq_ok ha
  have hlt := lt_size_of_node? ho
  have hnode := node?_insert hlt spec.symbol spec.requirement now.size
  rw [if_pos rfl] at hnode
  have hkind := kind?_insert hlt spec.symbol spec.requirement
  have hat : (now.insert parent spec.symbol spec.requirement).Leads base
      (Spec.names (spec :: above)) now.size := by
    rw [Spec.names_cons]
    exact (leads_insert_iff ho hf).2 (.inr ⟨_, hp, rfl, rfl⟩)
  have hnew : ∀ other ∈ done, Spec.path other ≠ Spec.path (spec :: above) := by
    intro other hother e
    have hnames : Spec.names other = Spec.names above ++ [spec.name] := by
      rw [← Spec.names_cons, Spec.names, e, Spec.names]
    exact not_resolves_of_fresh hp ho hf
      (hnames ▸ (h.grown.resolves (Spec.names other)).2 (.inr (List.mem_map_of_mem hother)))
  refine ⟨hgrown, ?origin, ?adopts⟩
  case origin =>
    intro names other hl
    rcases (leads_insert_iff ho hf).1 hl with hl | ⟨front, hfront, e, rfl⟩
    · rcases h.origin names other hl with hold | ⟨first, others, hfirst, hk⟩
      · exact .inl hold
      · refine .inr ⟨first, others, Spec.firstAt_append_of_some hfirst _, ?_⟩
        rw [hkind, if_neg, hk]
        rintro rfl
        rw [kind?, Option.map_eq_some_iff] at hk
        obtain ⟨symbol, hs, -⟩ := hk
        exact Nat.lt_irrefl _ (lt_size_of_symbol? hs)
    · obtain rfl := hfront.path_eq h.grown.wellFormed hp
      refine .inr ⟨spec, above, ?_, by rw [hkind, if_pos rfl]⟩
      rw [show names = Spec.path (spec :: above) by
        rw [← List.reverse_reverse names, e, Spec.names, List.reverse_append, List.reverse_reverse]
        rfl]
      exact Spec.firstAt_append_of_new hnew
  case adopts =>
    intro inner enclosing hm
    rcases List.mem_append.1 hm with hm | hm
    · exact h.adopts_keep (namesStay_insert ho hf spec.requirement)
        (nodesKeep_insert ho spec.symbol spec.requirement) hm
    · obtain ⟨rfl, rfl⟩ := List.cons.inj (List.mem_singleton.1 hm)
      exact ⟨now.size, _, hat, hnode, fun _ => Node.carries_self inner⟩

theorem keptByAdding (before : Tree κ) (base : NodeId) :
    KeptByAdding base fun done now => before.Adopted base done now where
  absorb h hp ho hid ha := h.absorb hp ho hid ha
  attach h hp habove ho hf ha := h.attach hp habove ho hf ha

/-- The names of a spec lead to a flag exactly if a flag came there first. -/
theorem isFlag_iff (h : before.Adopted base done now) (hw : before.WellFormed)
    {inner : Spec κ} {node : Node κ}
    (hl : now.Leads base (Spec.names (inner :: above)) id) (hn : now.node? id = some node) :
    node.isFlag = true ↔ before.FlagFirst base done (Spec.path (inner :: above)) := by
  rw [← hasKind_isFlag_of_node? hn]
  by_cases hr : before.Resolves base (Spec.names (inner :: above))
  · obtain ⟨old, hold⟩ := hr
    obtain rfl := (h.grown.stays _ _ _ hold).id_eq hl
    obtain ⟨oldNode, ho⟩ := hold.exists_node? hw (by rw [Spec.names_cons]; simp)
    have hkind := NodesKeep.kind?_eq h.grown.keeps ho
    rw [hasKind, hkind]
    refine ⟨fun hf => .inl ⟨old, hold, hf⟩, ?_⟩
    rintro (⟨other, hother, hf⟩ | ⟨hnone, -⟩)
    · obtain rfl := hother.id_eq hold
      exact hf
    · exact absurd ⟨old, hold⟩ hnone
  · obtain ⟨first, others, hfirst, hkind⟩ := (h.origin _ id hl).resolve_left hr
    rw [hasKind, hkind, Option.any_some, Symbol.isFlag_kind]
    refine ⟨fun hf => .inr ⟨hr, first, others, hfirst, hf⟩, ?_⟩
    rintro (⟨old, hold, -⟩ | ⟨-, first', others', hfirst', hf⟩)
    · exact absurd ⟨old, hold⟩ hr
    · obtain ⟨rfl, -⟩ := List.cons.inj (Option.some.inj (hfirst.symm.trans hfirst'))
      exact hf

/-- The names of every spec lead to a node, which has taken over its ending unless a flag came there
first. -/
theorem exists_node (h : before.Adopted base done now) (hw : before.WellFormed) {inner : Spec κ}
    (hm : inner :: above ∈ done) : ∃ id node,
      now.Leads base (Spec.names (inner :: above)) id ∧ now.node? id = some node ∧
        (node.isFlag = true ↔ before.FlagFirst base done (Spec.path (inner :: above))) ∧
        (node.isFlag = false → node.Carries inner) := by
  obtain ⟨id, node, hl, hn, hcarries⟩ := h.adopts inner above hm
  exact ⟨id, node, hl, hn, h.isFlag_iff hw hl hn, hcarries⟩

/-- The endings of a spec are there exactly if none of them came second to a flag. -/
theorem keepsEndings_iff (h : before.Adopted base (spec.lineages []) now) (hw : before.WellFormed) :
    now.KeepsEndings base spec ↔ ∀ inner above, inner :: above ∈ spec.lineages [] →
      inner.hasEnding = true →
        ¬ before.FlagFirst base (spec.lineages []) (Spec.path (inner :: above)) := by
  constructor
  · intro hkeeps inner above hm hending hfirst
    obtain ⟨id, node, hl, hn, hcarries⟩ := hkeeps inner above hm
    rw [hcarries.hasEnding_eq_false ((h.isFlag_iff hw hl hn).2 hfirst)] at hending
    cases hending
  · intro hfirst inner above hm
    obtain ⟨id, node, hl, hn, hflag, hcarries⟩ := h.exists_node hw hm
    refine ⟨id, node, hl, hn, ?_⟩
    cases hending : inner.hasEnding with
    | false => exact Node.carries_of_hasEnding_eq_false hending node
    | true =>
      exact hcarries (Bool.eq_false_iff.2 fun hf => hfirst inner above hm hending (hflag.1 hf))

end Adopted

/-! ### What is lost -/

/-- **Exactly the commands and redirects that come second to a flag are lost** when a spec is
added. -/
theorem keepsEndings_iff_of_add (h : tree.Reachable) (ha : tree.add parent spec = .ok (tree', id)) :
    (tree'.KeepsEndings parent spec ↔ ∀ inner above, inner :: above ∈ spec.lineages [] →
      inner.hasEnding = true →
        ¬ tree.FlagFirst parent (spec.lineages []) (Spec.path (inner :: above))) ∧
    (∀ inner above, inner :: above ∈ spec.lineages [] → ∃ id node,
      tree'.Leads parent (Spec.names (inner :: above)) id ∧ tree'.node? id = some node ∧
        (node.isFlag = true ↔
          tree.FlagFirst parent (spec.lineages []) (Spec.path (inner :: above))) ∧
        (node.isFlag = false → node.Carries inner)) ∧
    ((∀ inner above, inner :: above ∈ spec.lineages [] → inner.hasEnding = true →
      ∀ c, inner.name ≠ (Kind.flag c).name) → tree'.KeepsEndings parent spec) := by
  have hw := h.wellFormed
  obtain ⟨hadopted, -, -⟩ :=
    (Adopted.keptByAdding tree parent).add (.refl hw) (leads_nil_iff.2 rfl) (.inl rfl) ha
  rw [List.nil_append] at hadopted
  have hiff := hadopted.keepsEndings_iff hw
  refine ⟨hiff, fun inner above hm => hadopted.exists_node hw hm, fun hnames => ?_⟩
  refine hiff.2 fun inner above hm hending hfirst => ?_
  obtain ⟨c, hc⟩ := hfirst.exists_name hw
  exact hnames inner above hm hending c hc

/-- A literal without a command, with a flag below it. -/
def flagBelow : Except Violation (Tree Unit) := do
  let (tree, _) ← Tree.empty.add root ⟨.piece (.literal "a") {}, none, [⟨.flag 'x', none, []⟩]⟩
  return tree

theorem reachable_of_flagBelow {tree : Tree Unit} (h : flagBelow = .ok tree) : tree.Reachable := by
  obtain ⟨⟨t, _⟩, ha, h⟩ := exists_of_bind_eq_ok h
  cases h
  have hx := Spec.drafted_of_no_children (.flag 'x' : Symbol Unit) none
  exact .single (.add (.command ((CommandDraft.Drafted.literal "a").child hx rfl)) ha)

/-- The same literal with a command, and another literal with a redirect below it. -/
def commandAndRedirect : Spec Unit :=
  ⟨.piece (.literal "a") { command := some () }, none,
    [⟨.piece (.literal "b") { redirect := some 1 }, none, []⟩]⟩

/-- The command is taken over, and the redirect comes with a new node. -/
theorem keepsEndings_iff_of_add_flagBelow :
    ∃ tree tree' : Tree Unit, flagBelow = .ok tree ∧ tree.Reachable ∧
      tree.add root commandAndRedirect = .ok (tree', 1) ∧
      tree'.KeepsEndings root commandAndRedirect ∧
      ∀ inner above, inner :: above ∈ commandAndRedirect.lineages [] → inner.hasEnding = true →
        ¬ tree.FlagFirst root (commandAndRedirect.lineages []) (Spec.path (inner :: above)) := by
  have hrun : (flagBelow >>= fun tree => (tree.add root commandAndRedirect).map Prod.snd) =
      .ok 1 := by
    decide +kernel
  obtain ⟨tree, h, hadd⟩ := exists_of_bind_eq_ok hrun
  obtain ⟨⟨tree', id⟩, ha, rfl⟩ := exists_of_map_eq_ok hadd
  have hreach := reachable_of_flagBelow h
  obtain ⟨hiff, -, hnames⟩ := keepsEndings_iff_of_add hreach ha
  have hkeeps : tree'.KeepsEndings root commandAndRedirect := by
    refine hnames fun inner above hm _ c hc => ?_
    have hone : inner.name.length = 1 := by
      simp only [commandAndRedirect, Spec.lineages, Spec.lineagesAll, List.append_nil,
        List.mem_cons, List.not_mem_nil, or_false, List.cons.injEq] at hm
      rcases hm with ⟨rfl, -⟩ | ⟨rfl, -⟩ <;> rfl
    rw [hc, Kind.name, String.length_ofList] at hone
    cases hone
  exact ⟨tree, tree', h, hreach, ha, hkeeps, hiff.1 hkeeps⟩

/-- The same literal, and below it a literal with the name of the flag, which has a command. -/
def commandOnFlag : Spec Unit :=
  ⟨.piece (.literal "a") {}, none, [⟨.piece (.literal "-x") { command := some () }, none, []⟩]⟩

theorem drafted_commandOnFlag : commandOnFlag.Drafted :=
  .command ((CommandDraft.Drafted.literal "a").child
    (Spec.drafted_of_no_children (.piece (.literal "-x") { command := some () }) none) rfl)

/-- **A command can be lost**: it is given to a literal that is merged with a flag, which breaks no
rule, and afterwards no node has it. -/
theorem exists_lost_command :
    ∃ tree tree' : Tree Unit, flagBelow = .ok tree ∧ tree.Reachable ∧ commandOnFlag.Drafted ∧
      tree.add root commandOnFlag = .ok (tree', 1) ∧ tree'.find? ["a", "-x"] = .ok (some 2) ∧
      tree'.nodes.toList.map Node.command? = [none, none, none] ∧
      ¬ tree'.KeepsEndings root commandOnFlag := by
  have hrun : (flagBelow >>= fun tree => (tree.add root commandOnFlag).map fun (tree', id) =>
      (id, tree'.find? ["a", "-x"], tree'.nodes.toList.map Node.command?)) =
        .ok (1, .ok (some 2), [none, none, none]) := by
    decide +kernel
  obtain ⟨tree, h, hadd⟩ := exists_of_bind_eq_ok hrun
  obtain ⟨⟨tree', id⟩, ha, hresult⟩ := exists_of_map_eq_ok hadd
  simp only [Prod.mk.injEq] at hresult
  obtain ⟨rfl, hfind, hcommands⟩ := hresult
  refine ⟨tree, tree', h, reachable_of_flagBelow h, drafted_commandOnFlag, ha, hfind, hcommands, ?_⟩
  intro hkeeps
  obtain ⟨goal, node, -, hn, hcarries⟩ :=
    hkeeps ⟨.piece (.literal "-x") { command := some () }, none, []⟩ [commandOnFlag]
      (List.mem_cons_of_mem _ List.mem_cons_self)
  have hmem : node.command? ∈ tree'.nodes.toList.map Node.command? :=
    List.mem_map_of_mem (Array.mem_toList_iff.2 (Array.mem_of_getElem? hn))
  rw [hcarries.command () rfl, hcommands] at hmem
  simp at hmem

end Tree

end CommandGrammar
