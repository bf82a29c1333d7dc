import CommandGrammar.Match
import CommandGrammar.Proofs.Grammar.Redirect
import CommandGrammar.Usage.Line

/-!
# Which nodes a search depends on

A search below a node goes to children and to the targets of redirects, and so does a usage line.
Neither goes anywhere else. So if two grammars have the same nodes inside of a region that children
and redirects do not leave (`Tree.AgreesOn`), then nothing inside of it can tell them apart.

Main statements: below a node of the region both find the same matches
(`Tree.AgreesOn.matchFrom_eq`), and describe the same usage (`Tree.AgreesOn.usage_eq`).
-/

namespace CommandGrammar

variable {κ : Type}

namespace Tree

variable {tree tree' : Tree κ} {inside : NodeId → Prop} {context : Context} {id child : NodeId}
  {anchor : Option NodeId} {c : Cursor} {readable : c.rest ≠ []} {t : Trail}
  {here best : Option Match} {children : List NodeId}

/-- Two grammars have the same nodes inside of a region, which neither children nor redirects
leave. -/
structure AgreesOn (tree tree' : Tree κ) (inside : NodeId → Prop) : Prop where
  /-- The nodes are the same. -/
  node : ∀ id, inside id → tree'.node id = tree.node id
  /-- Children stay inside. -/
  child : ∀ id child, inside id → tree.IsChild id child → inside child
  /-- Redirects lead inside. -/
  redirect : ∀ id node target, inside id → tree.node? id = some node →
    node.redirect? = some target → inside target

namespace AgreesOn

/-! ### Matches -/

theorem step_eq (h : tree.AgreesOn tree' inside) (hchild : inside child) :
    tree'.step context child c t = tree.step context child c t := by
  rw [step, step, h.node child hchild]

/-- The statement about all texts shorter than the one at hand. -/
def Below (tree tree' : Tree κ) (inside : NodeId → Prop) (context : Context) (c : Cursor) : Prop :=
  ∀ id anchor (d : Cursor) t, d.rest.length < c.rest.length → inside id →
    tree'.matchFrom context id anchor d t = tree.matchFrom context id anchor d t

theorem matchAny_eq_of_below (h : tree.AgreesOn tree' inside)
    (ih : Below tree tree' inside context c)
    (hchildren : ∀ child ∈ children, inside child) :
    tree'.matchAny context anchor c readable t here best children =
      tree.matchAny context anchor c readable t here best children := by
  induction children generalizing best with
  | nil => rw [matchAny_nil, matchAny_nil]
  | cons child children ihc =>
    obtain ⟨hchild, hchildren⟩ := List.forall_mem_cons.1 hchildren
    have hstep : tree'.step context child c t = tree.step context child c t := h.step_eq hchild
    cases hs : tree.step context child c t with
    | error failure =>
      rw [matchAny_cons_of_error hs, matchAny_cons_of_error (hstep.trans hs)]
    | ok result =>
      cases result with
      | none =>
        rw [matchAny_cons_of_none hs, matchAny_cons_of_none (hstep.trans hs)]
        exact ihc hchildren
      | some s =>
        have hlt := length_rest_lt_of_step hs readable
        cases hr : s.node.redirect? with
        | some target =>
          rw [matchAny_cons_of_redirect hs hr, matchAny_cons_of_redirect (hstep.trans hs) hr]
          exact ih _ _ _ _ hlt (h.redirect child s.node target hchild (exists_read_of_step hs).1 hr)
        | none =>
          have hresume : tree'.resume context anchor child s =
              tree.resume context anchor child s := by
            simp only [resume, ih _ _ _ _ hlt hchild]
          rw [matchAny_cons_of_resume hs hr, matchAny_cons_of_resume (hstep.trans hs) hr, hresume]
          cases tree.resume context anchor child s with
          | error failure => rfl
          | ok found => exact ihc hchildren

/-- **Below the nodes of the region the same is found.** -/
theorem matchFrom_eq (h : tree.AgreesOn tree' inside) (hw : tree.WellFormed) (context : Context)
    (hid : inside id) (anchor : Option NodeId) (c : Cursor) (t : Trail) :
    tree'.matchFrom context id anchor c t = tree.matchFrom context id anchor c t := by
  induction hlen : c.rest.length using Nat.strongRecOn generalizing id anchor c t with
  | ind n ih =>
    have ihc : Below tree tree' inside context c := fun other anchor d t hd hother =>
      ih d.rest.length (hlen ▸ hd) hother anchor d t rfl
    rw [matchFrom, matchFrom, h.node id hid]
    cases hn : tree.node id with
    | error violation => rfl
    | ok node =>
      simp only
      split
      · exact h.matchAny_eq_of_below ihc fun child hm =>
          h.child id child hid (hw.isChild_of_relevant (node_eq_ok.1 hn) hm)
      · rfl

/-- So trying the same children gives the same, even from outside of the region. -/
theorem matchAny_eq (h : tree.AgreesOn tree' inside) (hw : tree.WellFormed)
    (hchildren : ∀ child ∈ children, inside child) :
    tree'.matchAny context anchor c readable t here best children =
      tree.matchAny context anchor c readable t here best children :=
  h.matchAny_eq_of_below (fun _ other d u _ hid => h.matchFrom_eq hw context hid other d u) hchildren

/-! ### Usage -/

variable {style : UsageStyle} {optional : Bool} {ids : List NodeId}

theorem canUse_eq (h : tree.AgreesOn tree' inside) (hid : inside id) :
    tree'.canUse id context = tree.canUse id context := by
  rw [canUse, canUse, h.node id hid]

theorem usable_eq (h : tree.AgreesOn tree' inside) (hids : ∀ id ∈ ids, inside id) :
    tree'.usable context ids = tree.usable context ids := by
  induction ids with
  | nil => rfl
  | cons id ids ih =>
    obtain ⟨hid, hids⟩ := List.forall_mem_cons.1 hids
    rw [usable, usable, h.node id hid, ih hids]

/-- The line of a node of the region is the same. It follows children, and for each of them it asks
whether the grammar is large enough, which both are. -/
theorem describe_eq (h : tree.AgreesOn tree' inside) (hw : tree.WellFormed)
    (hsize : tree.size ≤ tree'.size) (style : UsageStyle) (context : Context) (hid : inside id)
    (optional : Bool) :
    tree'.describe style context id optional = tree.describe style context id optional := by
  induction hm : tree.size - id using Nat.strongRecOn generalizing id optional with
  | ind n ih =>
    rw [describe, describe, h.node id hid]
    cases hn : tree.node id with
    | error violation => rfl
    | ok node =>
      have hchild : ∀ child ∈ node.children.order, inside child ∧ id < child ∧ child < tree.size := by
        intro child hm
        have hc : tree.IsChild id child := ⟨node, node_eq_ok.1 hn, hm⟩
        exact ⟨h.child id child hid hc, hw.bounds_of_isChild hc⟩
      simp only [bind, Except.bind]
      cases hr : node.redirect? with
      | some target =>
        simp only [h.node target (h.redirect id node target hid (node_eq_ok.1 hn) hr)]
      | none =>
        simp only [h.usable_eq fun child hm => (hchild child hm).1]
        cases hu : tree.usable context node.children.order with
        | error violation => rfl
        | ok nodes =>
          rcases nodes with _ | ⟨⟨only, onlyNode⟩, _ | _⟩
          · rfl
          · have hmem : only ∈ node.children.order := by
              have hfirst : [only] = _ := map_fst_of_usable hu
              exact List.mem_of_mem_filter (hfirst ▸ List.mem_singleton_self only)
            obtain ⟨hinside, hlt, hbound⟩ := hchild only hmem
            simp only [hlt, hbound, Nat.lt_of_lt_of_le hbound hsize, and_self, ↓reduceDIte,
              ih _ (hm ▸ Nat.sub_lt_sub_left (Nat.lt_trans hlt hbound) hlt) hinside false rfl]
          · rfl

theorem describeAll_eq (h : tree.AgreesOn tree' inside) (hw : tree.WellFormed)
    (hsize : tree.size ≤ tree'.size) (hids : ∀ id ∈ ids, inside id) :
    tree'.describeAll style context optional ids =
      tree.describeAll style context optional ids := by
  induction ids with
  | nil => rfl
  | cons id ids ih =>
    obtain ⟨hid, hids⟩ := List.forall_mem_cons.1 hids
    rw [describeAll, describeAll, h.canUse_eq hid, h.describe_eq hw hsize style context hid, ih hids]

/-- **The nodes of the region have the same usage.** -/
theorem usage_eq (h : tree.AgreesOn tree' inside) (hw : tree.WellFormed)
    (hsize : tree.size ≤ tree'.size) (style : UsageStyle) (context : Context) (hid : inside id) :
    tree'.usage style context id = tree.usage style context id := by
  rw [usage, usage, h.node id hid]
  cases hn : tree.node id with
  | error violation => rfl
  | ok node =>
    exact h.describeAll_eq hw hsize fun child hm => h.child id child hid ⟨node, node_eq_ok.1 hn, hm⟩

end AgreesOn

end Tree

end CommandGrammar
