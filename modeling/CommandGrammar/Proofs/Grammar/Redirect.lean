import CommandGrammar.Proofs.Match.Search
import CommandGrammar.Proofs.Usage.Children

/-!
# Where redirects lead

A redirect should lead to a node at which a line can end, which is a literal or an argument
(`Tree.RedirectsLead`). A new node is only let in if its redirect does. A node that is there and
takes over the redirect of a spec that is merged with it is not looked at in this way, so there is a
grammar whose redirect leads nowhere (`Tree.exists_stray_redirect`), and a line that follows it is a
violation.

Main statement: nothing else goes wrong (`Tree.redirectsLead_iff_of_reachable`). The redirects of a
grammar that can be built lead to nodes that can end a line exactly if those do that were given to
nodes that were there already. And if they do, then neither matching nor the usage asks for a node
that is not there.
-/

namespace CommandGrammar

open Relation

variable {κ : Type}

/-- The redirect of a piece. -/
def Symbol.redirect? (symbol : Symbol κ) : Option NodeId := symbol.ending?.bind Ending.redirect

/-- A redirect that is there stays. -/
theorem Symbol.redirect?_of_absorb {symbol incoming result : Symbol κ} {hasChildren : Bool}
    (h : symbol.absorb hasChildren incoming = .ok result) :
    result.redirect? = symbol.redirect? ∨ symbol.redirect? = none := by
  cases symbol with
  | flag c => exact .inr rfl
  | piece p ending =>
    cases incoming with
    | flag c =>
      cases h
      exact .inl rfl
    | piece q other =>
      simp only [absorb] at h
      cases ha : ending.absorb hasChildren other with
      | error violation =>
        rw [ha] at h
        cases h
      | ok absorbed =>
        rw [ha] at h
        cases h
        rcases Ending.redirect_of_absorb ha with ⟨-, hr⟩ | ⟨-, hn | hr, hr'⟩
        · exact .inl hr
        · exact .inr hn
        · exact .inl (hr'.trans hr.symm)

namespace Tree

variable {tree tree' : Tree κ} {id target : NodeId}

/-- The redirect of the node at a place. -/
def redirect? (tree : Tree κ) (id : NodeId) : Option NodeId :=
  (tree.symbol? id).bind Symbol.redirect?

/-- Every redirect leads to a node at which a line can end. -/
def RedirectsLead (tree : Tree κ) : Prop :=
  ∀ id target, tree.redirect? id = some target → tree.isTarget target = true

/-- From one grammar to the next, a node that is there without a redirect is given one. -/
def GivesRedirect (tree tree' : Tree κ) (id target : NodeId) : Prop :=
  id < tree.size ∧ tree.redirect? id = none ∧ tree'.redirect? id = some target

/-- On some way from the empty grammar to this one, a node that was there was given a redirect. -/
def RedirectGiven (tree : Tree κ) (id target : NodeId) : Prop :=
  ∃ before after : Tree κ, before.Reachable ∧ before.Edit after ∧ ReflTransGen Edit after tree ∧
    GivesRedirect before after id target

/-! ### Redirects and targets through the changes -/

theorem isTarget_eq_hasKind (tree : Tree κ) (id : NodeId) :
    tree.isTarget id = tree.hasKind (fun kind => !kind.isFlag) id := by
  unfold isTarget hasKind kind? symbol?
  cases tree.node? id with
  | none => rfl
  | some node =>
    obtain ⟨symbol?, requirement, children⟩ := node
    rcases symbol? with _ | ⟨⟨_ | _, _⟩ | _⟩ <;> rfl

theorem lt_size_of_isTarget (h : tree.isTarget id = true) : id < tree.size := by
  obtain ⟨node, hn, -⟩ := (Option.any_eq_true _ _).1 h
  exact lt_size_of_node? hn

theorem redirect?_of_node? {node : Node κ} (h : tree.node? id = some node) :
    tree.redirect? id = node.redirect? := by
  rw [redirect?, symbol?_of_node? h]
  unfold Node.redirect? Node.ending?
  cases node.symbol? <;> rfl

/-- A node at which a line can end stays one. -/
theorem Change.isTarget_mono (h : Change tree tree') (ht : tree.isTarget id = true) :
    tree'.isTarget id = true := by
  have hlt := lt_size_of_isTarget ht
  rw [isTarget_eq_hasKind] at ht ⊢
  unfold hasKind at ht ⊢
  rw [h.kind?_eq hlt]
  exact ht

theorem isTarget_mono_of_changes (h : ReflTransGen Change tree tree')
    (ht : tree.isTarget id = true) : tree'.isTarget id = true := by
  induction h with
  | refl => exact ht
  | tail _ hc ih => exact hc.isTarget_mono ih

/-- A redirect that is there stays. -/
theorem Change.redirect?_mono (h : Change tree tree') (hr : tree.redirect? id = some target) :
    tree'.redirect? id = some target := by
  obtain ⟨symbol, hs, hr⟩ := Option.bind_eq_some_iff.1 hr
  cases h with
  | insert ho _ _ _ =>
    have hne := Nat.ne_of_lt (lt_size_of_symbol? hs)
    rw [redirect?, symbol?_insert (lt_size_of_node? ho), if_neg hne, hs]
    exact hr
  | @absorb _ absorber _ node old incoming result _ _ hn hold hres =>
    rw [redirect?, symbol?_modify_symbol tree (lt_size_of_node? hn)]
    split
    · rename_i e
      subst e
      obtain rfl : old = symbol := by
        rw [symbol?_of_node? hn, hold] at hs
        exact Option.some.inj hs
      rcases Symbol.redirect?_of_absorb hres with h | h
      · exact h.trans hr
      · rw [hr] at h
        cases h
    · rw [hs]
      exact hr
  | @erase parent child owner name ho hid =>
    rw [redirect?, symbol?_modify_children tree parent id fun children => children.erase name child,
      hs]
    exact hr

/-- A redirect was there before, or came with a new node and leads to a node that can end a line, or
was given to a node that was there. -/
theorem Change.redirect?_origin (h : Change tree tree') (hr : tree'.redirect? id = some target) :
    tree.redirect? id = some target ∨ tree.isTarget target = true ∨
      GivesRedirect tree tree' id target := by
  by_cases hold : tree.redirect? id = none
  · refine .inr ?_
    by_cases hid : id < tree.size
    · exact .inr ⟨hid, hold, hr⟩
    · refine .inl ?_
      cases h with
      | insert ho _ _ ht =>
        rw [redirect?, symbol?_insert (lt_size_of_node? ho)] at hr
        split at hr
        · exact ht target hr
        · exact absurd (hold.symm.trans hr) (by simp)
      | absorb _ _ _ _ _ =>
        obtain ⟨symbol, hs, -⟩ := Option.bind_eq_some_iff.1 hr
        exact absurd (size_modify .. ▸ lt_size_of_symbol? hs) hid
      | erase _ _ =>
        obtain ⟨symbol, hs, -⟩ := Option.bind_eq_some_iff.1 hr
        exact absurd (size_modify .. ▸ lt_size_of_symbol? hs) hid
  · obtain ⟨old, ho⟩ := Option.ne_none_iff_exists'.1 hold
    have := h.redirect?_mono ho
    rw [hr] at this
    exact .inl (ho.trans this.symm)

theorem Edit.redirect?_mono (h : Edit tree tree') (hr : tree.redirect? id = some target) :
    tree'.redirect? id = some target := by
  replace h := changes_of_edit h
  induction h with
  | refl => exact hr
  | tail _ hc ih => exact hc.redirect?_mono ih

theorem redirect?_mono_of_edits (h : ReflTransGen Edit tree tree')
    (hr : tree.redirect? id = some target) : tree'.redirect? id = some target := by
  induction h with
  | refl => exact hr
  | tail _ he ih => exact he.redirect?_mono ih

/-- A redirect of a grammar that can be built leads to a node that can end a line, or was given to a
node that was there. -/
theorem Reachable.isTarget_or_redirectGiven (h : tree.Reachable)
    (hr : tree.redirect? id = some target) :
    tree.isTarget target = true ∨ tree.RedirectGiven id target := by
  suffices hall : tree.Reachable ∧ ∀ id target, tree.redirect? id = some target →
      tree.isTarget target = true ∨ tree.RedirectGiven id target from hall.2 id target hr
  -- what is given by an elementary change is given by a call, since the change is a call of its own
  refine h.induct (P := fun tree => tree.Reachable ∧ ∀ id target, tree.redirect? id = some target →
    tree.isTarget target = true ∨ tree.RedirectGiven id target) ⟨.refl, fun id target hr => ?_⟩ ?_
  · obtain ⟨symbol, hs, -⟩ := Option.bind_eq_some_iff.1 hr
    have hid : id < 1 := lt_size_of_symbol? hs
    obtain rfl := Nat.lt_one_iff.1 hid
    exact nomatch hs
  · intro tree tree' ⟨hreach, ih⟩ hc
    refine ⟨hreach.tail hc.edit, fun id target hr => ?_⟩
    rcases hc.redirect?_origin hr with hold | ht | hgives
    · rcases ih id target hold with ht | ⟨before, after, hb, he, hafter, hgives⟩
      · exact .inl (hc.isTarget_mono ht)
      · exact .inr ⟨before, after, hb, he, hafter.tail hc.edit, hgives⟩
    · exact .inl (hc.isTarget_mono ht)
    · exact .inr ⟨tree, tree', hreach, hc.edit, .refl, hgives⟩

/-- **Only the redirects given to nodes that are there can lead astray.** -/
theorem Reachable.redirectsLead_iff (h : tree.Reachable) :
    tree.RedirectsLead ↔
      ∀ id target, tree.RedirectGiven id target → tree.isTarget target = true := by
  constructor
  · intro hlead id target ⟨before, after, _, _, hafter, hgives⟩
    exact hlead id target (redirect?_mono_of_edits hafter hgives.2.2)
  · intro hgiven id target hr
    rcases h.isTarget_or_redirectGiven hr with ht | hg
    · exact ht
    · exact hgiven id target hg

/-- A node that can end a line is not the root. -/
theorem isChild_of_isTarget {node : Node κ} (hn : tree.node? id = some node)
    (ht : tree.isTarget id = true) : node.isChild = true := by
  rw [isTarget, hn] at ht
  obtain ⟨ending, he⟩ := Option.isSome_iff_exists.1 ht
  obtain ⟨symbol, hs, -⟩ := Option.bind_eq_some_iff.1 he
  rw [Node.isChild, hs]
  rfl

/-- A redirect to a node that can end a line does not lead to the root. -/
theorem RedirectsLead.belowRoot (h : tree.RedirectsLead) : tree.RedirectsBelowRoot := by
  intro node hn target hr goal hg
  obtain ⟨id, hid⟩ := Array.mem_iff_getElem?.1 hn
  exact isChild_of_isTarget hg (h id target ((redirect?_of_node? hid).trans hr))

/-! ### Nothing asks for a node that is not there -/

/-- Every redirect leads to a node. -/
def RedirectsStay (tree : Tree κ) : Prop :=
  ∀ id target, tree.redirect? id = some target → target < tree.size

theorem RedirectsLead.stay (h : tree.RedirectsLead) : tree.RedirectsStay := by
  intro id target hr
  exact lt_size_of_isTarget (h id target hr)

section Match

variable {context : Context} {anchor : Option NodeId} {c : Cursor} {readable : c.rest ≠ []}
  {t : Trail} {here best : Option Match} {child : NodeId} {children : List NodeId}
  {failure : Failure}

theorem exists_parse_of_step (h : child < tree.size)
    (hs : tree.step context child c t = .error failure) : ∃ e, failure = .parse e := by
  obtain ⟨node, hn⟩ := exists_node?_of_lt_size h
  unfold step at hs
  rw [node_eq_ok.2 hn] at hs
  simp only at hs
  repeat' split at hs
  all_goals cases hs
  all_goals exact ⟨_, rfl⟩

/-- Trying children fails for the line only, if they are there and reading on does. -/
theorem exists_parse_of_matchAny (hstay : tree.RedirectsStay)
    (ih : ∀ id anchor (d : Cursor) t failure, d.rest.length < c.rest.length → id < tree.size →
      tree.matchFrom context id anchor d t = .error failure → ∃ e, failure = .parse e)
    (hchildren : ∀ child ∈ children, child < tree.size)
    (h : tree.matchAny context anchor c readable t here best children = .error failure) :
    ∃ e, failure = .parse e := by
  induction children generalizing best with
  | nil =>
    rw [matchAny_nil] at h
    cases h
  | cons child children ihc =>
    have hchild : child < tree.size := hchildren child List.mem_cons_self
    have hrest : ∀ other ∈ children, other < tree.size := fun other ho =>
      hchildren other (List.mem_cons_of_mem child ho)
    cases hs : tree.step context child c t with
    | error failure =>
      rw [matchAny_cons_of_error hs] at h
      obtain rfl := Except.error.inj h
      exact exists_parse_of_step hchild hs
    | ok result =>
      cases result with
      | none =>
        rw [matchAny_cons_of_none hs] at h
        exact ihc hrest h
      | some s =>
        have hlt := length_rest_lt_of_step hs readable
        cases hr : s.node.redirect? with
        | some target =>
          rw [matchAny_cons_of_redirect hs hr] at h
          have hn := redirect?_of_node? (exists_read_of_step hs).1
          exact ih _ _ _ _ _ hlt (hstay child target (hn.trans hr)) h
        | none =>
          rw [matchAny_cons_of_resume hs hr] at h
          cases hf : tree.resume context anchor child s with
          | ok found =>
            rw [hf] at h
            exact ihc hrest h
          | error failure =>
            rw [hf] at h
            obtain rfl := Except.error.inj h
            unfold resume at hf
            simp only at hf
            split at hf
            · exact ih _ _ _ _ _ hlt hchild hf
            · cases hf

/-- **In a grammar whose redirects stay in it, only the line can be wrong.** -/
theorem exists_parse_of_matchFrom (hw : tree.WellFormed) (hstay : tree.RedirectsStay)
    (hid : id < tree.size) (h : tree.matchFrom context id anchor c t = .error failure) :
    ∃ e, failure = .parse e := by
  induction hlen : c.rest.length using Nat.strongRecOn generalizing id anchor c t failure with
  | ind n ih =>
    obtain ⟨node, hn⟩ := exists_node?_of_lt_size hid
    rw [matchFrom, node_eq_ok.2 hn] at h
    simp only at h
    split at h
    · refine exists_parse_of_matchAny hstay ?_ (fun child hm => ?_) h
      · intro other anchor d t failure hd ho hf
        exact ih d.rest.length (hlen ▸ hd) ho hf rfl
      · exact (hw.bounds_of_isChild (hw.isChild_of_relevant hn hm)).2
    · cases h

theorem matchFrom_ne_violation (hw : tree.WellFormed) (hstay : tree.RedirectsStay)
    (hid : id < tree.size) {breach : Violation} :
    tree.matchFrom context id anchor c t ≠ .error (.violation breach) := by
  intro h
  obtain ⟨e, he⟩ := exists_parse_of_matchFrom hw hstay hid h
  cases he

end Match

section Usage

variable (style : UsageStyle) (context : Context)

/-- Every node has a line. -/
theorem exists_describe (hw : tree.WellFormed) (hstay : tree.RedirectsStay) (optional : Bool)
    (hid : id < tree.size) : ∃ line, tree.describe style context id optional = .ok line := by
  induction hm : tree.size - id using Nat.strongRecOn generalizing id optional with
  | ind n ih =>
    obtain ⟨node, hn⟩ := exists_node?_of_lt_size hid
    rw [describe, node_eq_ok.2 hn]
    simp only [bind, Except.bind, pure, Except.pure]
    split
    · rename_i target hr
      obtain ⟨goal, hg⟩ := exists_node?_of_lt_size (hstay id target (redirect?_of_node? hn ▸ hr))
      rw [node_eq_ok.2 hg]
      exact ⟨_, rfl⟩
    · rw [usable_eq_ok hw hn]
      simp only
      split
      · exact ⟨_, rfl⟩
      · rename_i only onlyNode _
        split
        · exact ⟨_, rfl⟩
        · split
          · rename_i hlt
            have hless : tree.size - only < n :=
              hm ▸ Nat.sub_lt_sub_left (Nat.lt_trans hlt.1 hlt.2) hlt.1
            obtain ⟨line, hl⟩ := ih _ hless false hlt.2 rfl
            rw [hl]
            exact ⟨_, rfl⟩
          · exact ⟨_, rfl⟩
      · exact ⟨_, rfl⟩

theorem exists_describeAll (hw : tree.WellFormed) (hstay : tree.RedirectsStay) (optional : Bool)
    (ids : List NodeId) (h : ∀ id ∈ ids, id < tree.size) :
    ∃ lines, tree.describeAll style context optional ids = .ok lines := by
  induction ids with
  | nil => exact ⟨[], rfl⟩
  | cons id ids ih =>
    have hid := h id List.mem_cons_self
    obtain ⟨node, hn⟩ := exists_node?_of_lt_size hid
    obtain ⟨line, hl⟩ := exists_describe style context hw hstay optional hid
    obtain ⟨lines, hls⟩ := ih fun other hother => h other (List.mem_cons_of_mem id hother)
    rw [describeAll, canUse, node_eq_ok.2 hn]
    simp only [Except.map, bind, Except.bind, hl, hls]
    split <;> exact ⟨_, rfl⟩

/-- Every node has a usage. -/
theorem exists_usage (hw : tree.WellFormed) (hstay : tree.RedirectsStay) (hid : id < tree.size) :
    ∃ lines, tree.usage style context id = .ok lines := by
  obtain ⟨node, hn⟩ := exists_node?_of_lt_size hid
  rw [usage, node_eq_ok.2 hn]
  refine exists_describeAll style context hw hstay _ _ ?_
  intro child hc
  exact (hw.bounds_of_isChild ⟨node, hn, hc⟩).2

end Usage

/-! ### Which redirects lead astray -/

instance (tree : Tree κ) : Decidable tree.RedirectsLead :=
  decidable_of_iff (∀ id < tree.size, ∀ target ∈ tree.redirect? id, tree.isTarget target = true)
    ⟨fun h id target hr => by
      obtain ⟨symbol, hs, -⟩ := Option.bind_eq_some_iff.1 hr
      exact h id (lt_size_of_symbol? hs) target hr,
    fun h id _ target hr => h id target hr⟩

/-- **The redirects of a grammar that can be built lead to nodes that can end a line exactly if
those do that were given to nodes that were there.** And if they do, then neither matching nor the
usage asks for a node that is not there. -/
theorem redirectsLead_iff_of_reachable (h : tree.Reachable) :
    (tree.RedirectsLead ↔
      ∀ id target, tree.RedirectGiven id target → tree.isTarget target = true) ∧
    (tree.RedirectsLead →
      (∀ context c breach, tree.matchAt context c ≠ .error (.violation breach)) ∧
      ∀ style context, ∀ id < tree.size, ∃ lines, tree.usage style context id = .ok lines) := by
  refine ⟨h.redirectsLead_iff, fun hlead => ⟨?_, ?_⟩⟩
  · intro context c breach
    exact matchFrom_ne_violation h.wellFormed hlead.stay h.wellFormed.root
  · intro style context id hid
    exact exists_usage style context h.wellFormed hlead.stay hid

/-- Two literals, the second of which is given a redirect by a second registration. -/
def redirectGiven (target : NodeId) : Except Violation (Tree Unit) := do
  let (tree, _) ← Tree.empty.add root ⟨.piece (.literal "foo") {}, none, []⟩
  let (tree, _) ← tree.add root ⟨.piece (.literal "bar") {}, none, []⟩
  let (tree, _) ← tree.add root ⟨.piece (.literal "bar") { redirect := some target }, none, []⟩
  return tree

theorem reachable_of_redirectGiven {tree : Tree Unit} (h : redirectGiven target = .ok tree) :
    tree.Reachable := by
  obtain ⟨⟨t₁, _⟩, h₁, h⟩ := exists_of_bind_eq_ok h
  obtain ⟨⟨t₂, _⟩, h₂, h⟩ := exists_of_bind_eq_ok h
  obtain ⟨⟨t₃, _⟩, h₃, h⟩ := exists_of_bind_eq_ok h
  cases h
  have leaf := fun symbol : Symbol Unit => Spec.drafted_of_no_children symbol none
  exact ((ReflTransGen.refl.tail (.add (leaf _) h₁)).tail (.add (leaf _) h₂)).tail
    (.add (leaf _) h₃)

/-- A redirect to the first literal is one to a node that can end a line. -/
theorem redirectsLead_iff_of_reachable_given :
    ∃ tree : Tree Unit, redirectGiven 1 = .ok tree ∧ tree.Reachable ∧ tree.redirect? 2 = some 1 ∧
      (∀ id target, tree.RedirectGiven id target → tree.isTarget target = true) ∧
      (∀ context c breach, tree.matchAt context c ≠ .error (.violation breach)) ∧
      ∀ style context, ∀ id < tree.size, ∃ lines, tree.usage style context id = .ok lines := by
  have hrun : (redirectGiven 1).map (fun tree => decide (tree.redirect? 2 = some 1 ∧
      tree.RedirectsLead)) = .ok true := by
    decide +kernel
  obtain ⟨tree, h, hd⟩ := exists_of_map_eq_ok hrun
  obtain ⟨hr, hlead⟩ := of_decide_eq_true hd
  have hreach := reachable_of_redirectGiven h
  obtain ⟨hiff, hno⟩ := redirectsLead_iff_of_reachable hreach
  exact ⟨tree, h, hreach, hr, hiff.1 hlead, hno hlead⟩

/-- **A redirect can lead to no node at all**, and then a line that follows it is a violation. -/
theorem exists_stray_redirect :
    ∃ tree : Tree Unit, redirectGiven 42 = .ok tree ∧ tree.Reachable ∧ ¬ tree.RedirectsLead ∧
      tree.redirect? 2 = some 42 ∧ tree.size = 3 ∧
      (tree.matchAt .empty (.atStart "bar")).map (fun _ => ()) =
        .error (.violation (.unknownNode 3 42)) ∧
      tree.usage {} .empty root = .error (.unknownNode 3 42) := by
  have hrun : (redirectGiven 42).map (fun tree => decide (tree.redirect? 2 = some 42 ∧
      tree.size = 3 ∧ ¬ tree.RedirectsLead)) = .ok true := by
    decide +kernel
  have hmatch : (redirectGiven 42).map (fun tree =>
      ((tree.matchAt .empty (.atStart "bar")).map (fun _ => ()), tree.usage {} .empty root)) =
        .ok (.error (.violation (.unknownNode 3 42)), .error (.unknownNode 3 42)) := by
    cbv
  obtain ⟨tree, h, hd⟩ := exists_of_map_eq_ok hrun
  obtain ⟨hr, hsize, hlead⟩ := of_decide_eq_true hd
  rw [h] at hmatch
  obtain ⟨hm, hu⟩ := Prod.mk.inj (Except.ok.inj hmatch)
  exact ⟨tree, h, reachable_of_redirectGiven h, hlead, hr, hsize, hm, hu⟩

end Tree

end CommandGrammar
