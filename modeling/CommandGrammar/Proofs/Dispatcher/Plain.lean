import CommandGrammar.Proofs.Dispatcher.Alias
import CommandGrammar.Proofs.Grammar.Lineage

/-!
# Plain grammars

A grammar is plain if there are literals only to which names lead, and none has a requirement or a
redirect (`Tree.Plain`). It may have any names, also empty ones and such that no token can have. At
every node there is at most one child to try, and trying it never fails.

Main statement: what is found in a line depends on nothing but the names (`Tree.Plain.exists_found`).
In two plain grammars in which the same names lead somewhere, no line is wrong, and the same is found
in both, up to the places at which the nodes are kept (`Tree.SameMatch`).
-/

namespace CommandGrammar

variable {κ : Type}

/-! ### Plain specs -/

namespace Spec

/-- A literal without a requirement and without a redirect, which may have a command and children. -/
structure Plain (spec : Spec κ) : Prop where
  /-- It is a literal. -/
  literal : spec.symbol.kind.isLiteral = true
  /-- It has no requirement. -/
  requirement : spec.requirement = none
  /-- It has no redirect. -/
  redirect : spec.symbol.redirect? = none

theorem plain_iff {spec : Spec κ} : spec.Plain ↔ spec.symbol.kind.isLiteral = true ∧
    spec.requirement.isNone = true ∧ spec.symbol.redirect? = none := by
  rw [Option.isNone_iff_eq_none]
  exact ⟨fun h => ⟨h.literal, h.requirement, h.redirect⟩, fun ⟨hl, hq, hr⟩ => ⟨hl, hq, hr⟩⟩

instance (spec : Spec κ) : Decidable spec.Plain := decidable_of_iff _ plain_iff.symm

/-- Every spec in some lineages is plain. -/
def AllPlain (done : List (List (Spec κ))) : Prop := ∀ lineage ∈ done, ∀ spec ∈ lineage, spec.Plain

instance (done : List (List (Spec κ))) : Decidable (AllPlain done) :=
  inferInstanceAs (Decidable (∀ lineage ∈ done, ∀ spec ∈ lineage, spec.Plain))

theorem Plain.exists_symbol {spec : Spec κ} (h : spec.Plain) :
    ∃ name ending, spec.symbol = .piece (.literal name) ending ∧ ending.redirect = none := by
  obtain ⟨⟨p, ending⟩ | c, requirement, children⟩ := spec
  · cases p with
    | literal name => exact ⟨name, ending, rfl, h.redirect⟩
    | argument a => cases h.literal
  · cases h.literal

end Spec

/-- The first of two results that is there, in both of two pairs. -/
theorem rel_or {α β : Type} {r : α → β → Prop} {first second : Option α}
    {first' second' : Option β} (h : Option.Rel r first first') (h' : Option.Rel r second second') :
    Option.Rel r (first.or second) (first'.or second') := by
  cases h with
  | some h => exact .some h
  | none => exact h'

namespace Tree

variable {tree tree' : Tree κ} {context : Context} {id id' parent child : NodeId}
  {node owner : Node κ} {name : String} {names : List String} {c next : Cursor} {t : Trail}

/-- To every name behind others, from the root on, belongs a literal without a requirement and
without a redirect. -/
structure Plain (tree : Tree κ) : Prop where
  /-- The grammar is well formed. -/
  wellFormed : tree.WellFormed
  /-- What names lead to is such a literal. -/
  literal : ∀ name names id, tree.At (name :: names) id → ∃ node ending,
    tree.node? id = some node ∧ node.symbol? = some (.piece (.literal name) ending) ∧
      node.requirement = none ∧ ending.redirect = none

/-- What plain specs leave when they are added to the empty grammar is plain. -/
theorem Registered.plain {done : List (List (Spec κ))} (h : tree.Registered done)
    (hdone : Spec.AllPlain done) : tree.Plain := by
  refine ⟨h.wellFormed, fun name names id hat => ?_⟩
  obtain ⟨node, hn⟩ := hat.exists_node? h.wellFormed
  obtain ⟨spec, above, hfirst, hkind, hrequirement⟩ := h.origin name names id node hat hn
  have hspec := hdone _ (List.mem_of_find?_eq_some hfirst) spec List.mem_cons_self
  obtain ⟨parent, owner, -, ho, hid⟩ := hat.exists_parent
  have hname := (h.wellFormed.isChild_of_byName ho hid).2
  obtain ⟨text, ending, hsymbol, -⟩ := hspec.exists_symbol
  rw [hsymbol] at hkind
  obtain rfl : text = name := by
    rw [name?, hkind] at hname
    exact Option.some.inj hname
  obtain ⟨ending, hs⟩ := exists_symbol_of_kind hkind hn
  refine ⟨node, ending, hn, hs, hrequirement.trans hspec.requirement, ?_⟩
  by_contra hr
  obtain ⟨target, hr⟩ := Option.ne_none_iff_exists'.1 hr
  obtain ⟨lineage, hl, other, hm, hother⟩ := h.redirects id target (by
    rw [redirect?, symbol?_of_node? hn, hs]
    exact hr)
  rw [(hdone lineage hl other hm).redirect] at hother
  cases hother

namespace Plain

/-- Names lead to the root, if there are none, and else to a literal of the last name. -/
theorem symbol?_cases (h : tree.Plain) (hat : tree.At names id)
    (hn : tree.node? id = some node) : names = [] ∧ node.symbol? = none ∨
      ∃ name above ending, names = name :: above ∧
        node.symbol? = some (.piece (.literal name) ending) ∧ ending.redirect = none := by
  cases names with
  | nil =>
    cases hat
    obtain ⟨root, hroot, hc⟩ := h.wellFormed.exists_root
    obtain rfl := Option.some.inj (hn.symm.trans hroot)
    exact .inl ⟨rfl, by simpa [Node.isChild] using hc⟩
  | cons name names =>
    obtain ⟨node', ending, hn', hs, -, hr⟩ := h.literal name names id hat
    obtain rfl := Option.some.inj (hn.symm.trans hn')
    exact .inr ⟨name, names, ending, rfl, hs, hr⟩

theorem redirect?_eq_none (h : tree.Plain) (hat : tree.At names id)
    (hn : tree.node? id = some node) : node.redirect? = none := by
  rw [Node.redirect?, Node.ending?]
  obtain ⟨-, hs⟩ | ⟨name, above, ending, -, hs, hr⟩ := h.symbol?_cases hat hn
  · rw [hs]
    rfl
  · rw [hs]
    exact hr

/-- Exactly the node to which no names lead is the root. -/
theorem isChild_eq (h : tree.Plain) (hat : tree.At names id) (hn : tree.node? id = some node) :
    node.isChild = !names.isEmpty := by
  rw [Node.isChild]
  obtain ⟨rfl, hs⟩ | ⟨name, above, ending, rfl, hs, -⟩ := h.symbol?_cases hat hn
  · rw [hs]
    rfl
  · rw [hs]
    rfl

theorem isFlag_eq_false (h : tree.Plain) (hat : tree.At names id)
    (hn : tree.node? id = some node) : node.isFlag = false := by
  rw [Node.isFlag]
  obtain ⟨-, hs⟩ | ⟨name, above, ending, -, hs, -⟩ := h.symbol?_cases hat hn
  · rw [hs]
    rfl
  · rw [hs]
    rfl

/-- The next token is matched against the child of that name. -/
theorem relevantChildren_eq (h : tree.Plain) (hat : tree.At names id)
    (hn : tree.node? id = some node) (c : Cursor) :
    node.relevantChildren c = (node.children.byName.find? (String.ofList c.token)).toList := by
  refine (h.wellFormed.indexed id node hn).relevantChildren_eq (fun child hm => ?_) c
  obtain ⟨name, hchild⟩ := h.wellFormed.exists_child?_of_isChild ⟨node, hn, hm⟩
  obtain ⟨owner, ho, hid⟩ := child?_eq_ok_some_iff.1 hchild
  obtain ⟨childNode, ending, hchild, hs, -⟩ := h.literal name names child (.child hat ho hid)
  rw [hasKind, kind?, symbol?_of_node? hchild, hs]
  rfl

end Plain

/-! ### What is found -/

/-- Two matches end at the same place of a line, at nodes to which the same names lead, and have
collected the same. -/
structure SameMatch (tree tree' : Tree κ) (m m' : Match) : Prop where
  /-- The same names lead to the nodes. -/
  names : ∃ name names, tree.At (name :: names) m.node ∧ tree'.At (name :: names) m'.node
  /-- They end at the same place. -/
  cursor : m'.cursor = m.cursor
  /-- They have collected the same. -/
  trail : m'.trail = m.trail

/-- In two grammars the same names lead somewhere. -/
def SameNames (tree tree' : Tree κ) : Prop :=
  ∀ names, (∃ id, tree.At names id) ↔ ∃ id, tree'.At names id

/-- Where names lead, there is a match in both grammars or in neither. -/
theorem Plain.rel_here (h : tree.Plain) (h' : tree'.Plain) (hat : tree.At names id)
    (hat' : tree'.At names id') {node' : Node κ} (hn : tree.node? id = some node)
    (hn' : tree'.node? id' = some node') (c : Cursor) (t : Trail) :
    Option.Rel (tree.SameMatch tree') (if node.isChild then some ⟨id, c, t⟩ else none)
      (if node'.isChild then some ⟨id', c, t⟩ else none) := by
  rw [h.isChild_eq hat hn, h'.isChild_eq hat' hn']
  cases names with
  | nil => exact .none
  | cons name names => exact .some ⟨⟨name, names, hat, hat'⟩, rfl, rfl⟩

/-- A token that is no name of a child ends the match. -/
theorem Plain.matchFrom_of_none (h : tree.Plain) (hat : tree.At names id)
    (hn : tree.node? id = some node) (hc : c.rest ≠ [])
    (hnone : node.children.byName.find? (String.ofList c.token) = none) (anchor : Option NodeId)
    (t : Trail) :
    tree.matchFrom context id anchor c t = .ok (if node.isChild then some ⟨id, c, t⟩ else none) := by
  rw [matchFrom, node_eq_ok.2 hn]
  simp only [dif_pos hc, h.relevantChildren_eq hat hn, hnone, Option.toList_none]
  exact matchAny_nil

/-- One that is goes on below that child. -/
theorem Plain.matchFrom_of_child (h : tree.Plain) (hat : tree.At names id)
    (hn : tree.node? id = some node) (hc : c.rest ≠ [])
    (hid : node.children.byName.find? (String.ofList c.token) = some child)
    (hnext : (c.skipBytes (byteLength c.token)).nextPart? = some next) (anchor : Option NodeId)
    (t : Trail) :
    tree.matchFrom context id anchor c t =
      (tree.matchFrom context child (some child) next
        (t.addLiteral (c.spanTo (c.skipBytes (byteLength c.token))))).map
          (·.or (if node.isChild then some ⟨id, c, t⟩ else none)) := by
  have hchild : tree.At (String.ofList c.token :: names) child := .child hat hn hid
  obtain ⟨childNode, ending, hchildNode, hs, hrequirement, -⟩ := h.literal _ names child hchild
  have hu : childNode.canUse context = true := by
    rw [Node.canUse, hrequirement]
    rfl
  have hrelevant : node.relevantChildren c = [child] := by
    rw [h.relevantChildren_eq hat hn, hid]
    rfl
  have hlength : byteLength (String.ofList c.token).toList = byteLength c.token := by
    rw [String.toList_ofList]
  rw [matchFrom_of_literal hn hrelevant hc hchildNode hs hu
    (h.redirect?_eq_none hchild hchildNode) (hlength ▸ hnext), hlength]

/-- **In plain grammars with the same names the same is found.** -/
theorem Plain.exists_found (h : tree.Plain) (h' : tree'.Plain) (hnames : tree.SameNames tree')
    (context : Context) (hat : tree.At names id) (hat' : tree'.At names id')
    (anchor anchor' : Option NodeId) (c : Cursor) (t : Trail) :
    ∃ found found', tree.matchFrom context id anchor c t = .ok found ∧
      tree'.matchFrom context id' anchor' c t = .ok found' ∧
        Option.Rel (tree.SameMatch tree') found found' := by
  induction hlen : c.rest.length using Nat.strongRecOn
    generalizing names id id' anchor anchor' c t with
  | ind n ih =>
    obtain ⟨node, hn⟩ := hat.exists_node? h.wellFormed
    obtain ⟨node', hn'⟩ := hat'.exists_node? h'.wellFormed
    have hhere := h.rel_here h' hat hat' hn hn' c t
    by_cases hc : c.rest = []
    · exact ⟨_, _, matchFrom_of_end hn hc, matchFrom_of_end hn' hc, hhere⟩
    -- the next token leads on in both grammars or in neither
    have hiff := hnames (String.ofList c.token :: names)
    cases hid : node.children.byName.find? (String.ofList c.token) with
    | none =>
      have hid' : node'.children.byName.find? (String.ofList c.token) = none := by
        by_contra hne
        obtain ⟨child', hid'⟩ := Option.ne_none_iff_exists'.1 hne
        obtain ⟨child, hchild⟩ := hiff.2 ⟨child', .child hat' hn' hid'⟩
        obtain ⟨parent, owner, hp, ho, hid''⟩ := hchild.exists_parent
        obtain rfl := hp.id_eq hat
        obtain rfl := Option.some.inj (hn.symm.trans ho)
        rw [hid] at hid''
        cases hid''
      exact ⟨_, _, h.matchFrom_of_none hat hn hc hid anchor t,
        h'.matchFrom_of_none hat' hn' hc hid' anchor' t, hhere⟩
    | some child =>
      obtain ⟨child', hchild'⟩ := hiff.1 ⟨child, .child hat hn hid⟩
      obtain ⟨parent, owner, hp, ho, hid'⟩ := hchild'.exists_parent
      obtain rfl := hp.id_eq hat'
      obtain rfl := Option.some.inj (hn'.symm.trans ho)
      obtain ⟨next, hnext, hlt⟩ := c.exists_nextPart?_of_token hc
      obtain ⟨found, found', hf, hf', hrel⟩ := ih next.rest.length (hlen ▸ hlt)
        (.child hat hn hid) hchild' (some child) (some child') next
        (t.addLiteral (c.spanTo (c.skipBytes (byteLength c.token)))) rfl
      refine ⟨found.or _, found'.or _, ?_, ?_, rel_or hrel hhere⟩
      · rw [h.matchFrom_of_child hat hn hc hid hnext, hf]
        rfl
      · rw [h'.matchFrom_of_child hat' hn' hc hid' hnext, hf']
        rfl

end Tree

end CommandGrammar
