import CommandGrammar.Proofs.Grammar.Redirect

/-!
# Redirects and children

A redirect says where reading goes on behind a node, so a node that has one has no children. Children
and redirects are given in four ways: a draft takes a child or a redirect, a spec becomes a new node
below another one, a spec is merged and its children are added, and a spec is merged and its redirect
is taken over. Each way has a guard of its own, and removing a child may open a way again.

Main statement: `redirectsChildless_of_drafted_and_of_reachable`. Neither a spec that comes out of a
draft, however deep one looks into it, nor a grammar that can be built has a node with both. So a
node with a redirect refuses every child (`Tree.Reachable.add_eq_error_of_redirect`).
-/

namespace CommandGrammar

open Relation

variable {κ : Type}

/-! ### Specs -/

namespace Spec

/-- In a spec, however deep one looks, none with a redirect has children. -/
def RedirectsChildless (spec : Spec κ) : Prop :=
  ∀ inner, ReflTransGen (fun outer child => child ∈ outer.children) spec inner →
    inner.symbol.redirect?.isSome = true → inner.children = []

variable {spec : Spec κ}

/-- To know something of all specs in a spec it is enough to look at the spec itself and into its
children. -/
theorem forall_inside_iff {P : Spec κ → Prop} :
    (∀ inner, ReflTransGen (fun outer child => child ∈ outer.children) spec inner → P inner) ↔
      P spec ∧ ∀ child ∈ spec.children, ∀ inner,
        ReflTransGen (fun outer child => child ∈ outer.children) child inner → P inner := by
  constructor
  · intro h
    refine ⟨h spec .refl, fun child hc inner hi => ?_⟩
    exact h inner (hi.head hc)
  · rintro ⟨hself, hchildren⟩ inner hi
    obtain rfl | ⟨child, hc, hi⟩ := hi.cases_head
    · exact hself
    · exact hchildren child hc inner hi

theorem redirectsChildless_iff : spec.RedirectsChildless ↔
    (spec.symbol.redirect?.isSome = true → spec.children = []) ∧
      ∀ child ∈ spec.children, child.RedirectsChildless :=
  forall_inside_iff

/-- A spec without children is as it should be. -/
theorem redirectsChildless_of_no_children (h : spec.children = []) : spec.RedirectsChildless := by
  refine redirectsChildless_iff.2 ⟨fun _ => h, fun child hc => ?_⟩
  rw [h] at hc
  cases hc

/-- Only redirects and children matter. -/
theorem RedirectsChildless.congr {other : Spec κ} (h : spec.RedirectsChildless)
    (hr : other.symbol.redirect? = spec.symbol.redirect?) (hc : other.children = spec.children) :
    other.RedirectsChildless := by
  rw [redirectsChildless_iff] at h ⊢
  rw [hr, hc]
  exact h

/-- A child more, where there is no redirect. -/
theorem RedirectsChildless.concat {child : Spec κ} (h : spec.RedirectsChildless)
    (hnone : spec.symbol.redirect? = none) (hc : child.RedirectsChildless) :
    RedirectsChildless ⟨spec.symbol, spec.requirement, spec.children ++ [child]⟩ := by
  obtain ⟨-, hchildren⟩ := redirectsChildless_iff.1 h
  refine redirectsChildless_iff.2 ⟨fun hr => ?_, fun other ho => ?_⟩
  · rw [hnone] at hr
    cases hr
  · rcases List.mem_append.1 ho with ho | ho
    · exact hchildren other ho
    · obtain rfl := List.mem_singleton.1 ho
      exact hc

end Spec

namespace CommandDraft

variable {draft result : CommandDraft κ}

/-- A draft takes a child only if it has no redirect. -/
theorem redirectsChildless_child {spec : Spec κ} (h : draft.toSpec.RedirectsChildless)
    (hs : spec.RedirectsChildless) (he : draft.child spec = .ok result) :
    result.toSpec.RedirectsChildless := by
  unfold child at he
  split at he
  · cases he
  · rename_i hnone
    obtain rfl := Except.ok.inj he
    exact h.concat (show draft.ending.redirect = none by simpa using hnone) hs

/-- A command has no part in this. -/
theorem redirectsChildless_executes {command : κ} (h : draft.toSpec.RedirectsChildless)
    (he : draft.executes command = .ok result) : result.toSpec.RedirectsChildless := by
  obtain ⟨ending, hb, rfl⟩ := exists_of_map_eq_ok he
  unfold Ending.bindCommand at hb
  split at hb
  · cases hb
  · obtain rfl := Except.ok.inj hb
    exact h.congr rfl rfl

/-- A draft takes a redirect only if it has no children. -/
theorem redirectsChildless_redirects {target : NodeId} (he : draft.redirects target = .ok result) :
    result.toSpec.RedirectsChildless := by
  unfold redirects at he
  split at he
  · rename_i hempty
    obtain rfl := Except.ok.inj he
    exact Spec.redirectsChildless_of_no_children (List.isEmpty_iff.1 hempty)
  · cases he

end CommandDraft

/-- **In a spec that comes out of a draft, none with a redirect has children.** -/
theorem Spec.Drafted.redirectsChildless {spec : Spec κ} (h : spec.Drafted) :
    spec.RedirectsChildless := by
  have hbare : ∀ symbol : Symbol κ, RedirectsChildless ⟨symbol, none, []⟩ := fun _ =>
    redirectsChildless_of_no_children rfl
  -- over the calls that make the spec and all drafts of the specs in it
  refine @Spec.Drafted.rec κ (fun spec _ => spec.RedirectsChildless)
    (fun draft _ => draft.toSpec.RedirectsChildless)
    (fun draft _ => draft.toSpec.RedirectsChildless)
    ?command ?flag ?literal ?argument ?child ?requires ?executes ?redirects ?bareFlag ?flagChild
    ?flagRequires spec h
  case command => exact fun _ ih => ih
  case flag => exact fun _ ih => ih
  case literal => exact fun name => hbare (.piece (.literal name) {})
  case argument => exact fun a => hbare (.piece (.argument a) {})
  case child => exact fun _ _ he ih ihs => CommandDraft.redirectsChildless_child ih ihs he
  case requires => exact fun _ _ ih => ih.congr rfl rfl
  case executes => exact fun _ he ih => CommandDraft.redirectsChildless_executes ih he
  case redirects => exact fun _ he _ => CommandDraft.redirectsChildless_redirects he
  case bareFlag => exact fun c => hbare (.flag c)
  case flagChild => exact fun _ _ ih ihs => ih.concat rfl ihs
  case flagRequires => exact fun _ _ ih => ih.congr rfl rfl

/-! ### Grammars -/

/-- A symbol takes over a redirect only for a node without children. -/
theorem Symbol.redirect?_eq_or_of_absorb {symbol incoming result : Symbol κ} {hasChildren : Bool}
    (h : symbol.absorb hasChildren incoming = .ok result) :
    result.redirect? = symbol.redirect? ∨ hasChildren = false := by
  rcases symbol with ⟨p, ending⟩ | c
  · rcases incoming with ⟨q, other⟩ | c
    · obtain ⟨absorbed, ha, rfl⟩ := exists_of_map_eq_ok h
      exact (Ending.redirect_of_absorb ha).imp (fun hr => hr.2) fun hr => hr.1
    · cases h
      exact .inl rfl
  · cases h
    exact .inl rfl

namespace Tree

variable {tree tree' : Tree κ} {parent : NodeId} {owner : Node κ}

/-- A node with a redirect has no children. -/
def RedirectsChildless (tree : Tree κ) : Prop :=
  ∀ id node, tree.node? id = some node → node.redirect?.isSome = true → node.children.order = []

theorem RedirectsChildless.change (h : tree.RedirectsChildless) (hc : Change tree tree') :
    tree'.RedirectsChildless := by
  intro id node hn hr
  cases hc with
  | @insert parent owner symbol requirement ho _ hnone _ =>
    obtain ⟨-, rfl⟩ | ⟨-, rfl⟩ | hold := node?_insert_eq_some ho hn
    · rfl
    · -- the parent has no redirect
      have hsome : owner.redirect?.isSome = true := hr
      rw [hnone] at hsome
      cases hsome
    · exact h id node hold hr
  | @absorb parent child owner old symbol incoming result _ _ hold hs hres =>
    obtain ⟨rfl, node, hnode, rfl⟩ | ⟨-, hnode⟩ := node?_modify_eq_some hn
    · obtain rfl := Option.some.inj (hold.symm.trans hnode)
      rcases Symbol.redirect?_eq_or_of_absorb hres with he | hempty
      · refine h id old hold ?_
        rw [Node.redirect?, Node.ending?, hs]
        exact (congrArg Option.isSome he).symm.trans hr
      · simpa using hempty
    · exact h id node hnode hr
  | erase ho hid =>
    obtain ⟨rfl, node, hnode, rfl⟩ | ⟨-, hnode⟩ := node?_modify_eq_some hn
    · have hnil : node.children.order = [] := h id node hnode hr
      simp only [Children.erase, hnil, List.filter_nil]
    · exact h id node hnode hr

/-- **In every grammar that can be built, a node with a redirect has no children.** -/
theorem Reachable.redirectsChildless (h : tree.Reachable) : tree.RedirectsChildless := by
  refine h.induct ?_ RedirectsChildless.change
  intro id node hn hr
  obtain rfl : id = Tree.root := Nat.lt_one_iff.1 (lt_size_of_node? hn)
  obtain rfl := Option.some.inj hn
  cases hr

/-- **A node with a redirect refuses every child.** -/
theorem Reachable.add_eq_error_of_redirect (h : tree.Reachable)
    (ho : tree.node? parent = some owner) (hr : owner.redirect?.isSome = true) (spec : Spec κ) :
    tree.add parent spec = .error .childUnderRedirect := by
  have hnil := h.redirectsChildless parent owner ho hr
  have hnone : owner.children.byName.find? spec.symbol.name = none := by
    by_contra hne
    obtain ⟨id, hid⟩ := Option.ne_none_iff_exists'.1 hne
    have hm := (((h.wellFormed.indexed parent owner ho).byName _ _).1 hid).1
    rw [hnil] at hm
    cases hm
  obtain ⟨symbol, requirement, specs⟩ := spec
  have hattach : tree.attach parent owner symbol requirement = .error .childUnderRedirect := by
    rw [attach, if_pos hr]
    rfl
  rw [add_of_new ho hnone, hattach]
  rfl

end Tree

/-- **Nothing has both a redirect and children**, neither a spec that comes out of a draft nor a
grammar that can be built. -/
theorem redirectsChildless_of_drafted_and_of_reachable :
    (∀ spec : Spec κ, spec.Drafted → spec.RedirectsChildless) ∧
      ∀ tree : Tree κ, tree.Reachable → tree.RedirectsChildless :=
  ⟨fun _ h => h.redirectsChildless, fun _ h => h.redirectsChildless⟩

/-- A literal with a redirect. -/
def redirected : Spec Unit := ⟨.piece (.literal "a") { redirect := some 1 }, none, []⟩

/-- Two literals, the second of which is merged with one that has a redirect, after its only child
was removed. -/
def redirectedAfterRemoval : Except Violation (Tree Unit) := do
  let (tree, _) ← Tree.empty.add Tree.root ⟨.piece (.literal "b") {}, none, []⟩
  let (tree, _) ← tree.add Tree.root ⟨.piece (.literal "a") {}, none,
    [⟨.piece (.literal "c") {}, none, []⟩]⟩
  let (tree, _) ← tree.remove 2 "c"
  let (tree, _) ← tree.add Tree.root redirected
  return tree

theorem reachable_of_redirectedAfterRemoval {tree : Tree Unit}
    (h : redirectedAfterRemoval = .ok tree) : tree.Reachable := by
  obtain ⟨⟨t₁, _⟩, h₁, h⟩ := exists_of_bind_eq_ok h
  obtain ⟨⟨t₂, _⟩, h₂, h⟩ := exists_of_bind_eq_ok h
  obtain ⟨⟨t₃, _⟩, h₃, h⟩ := exists_of_bind_eq_ok h
  obtain ⟨⟨t₄, _⟩, h₄, h⟩ := exists_of_bind_eq_ok h
  cases h
  have leaf := fun symbol : Symbol Unit => Spec.drafted_of_no_children symbol none
  refine (((ReflTransGen.refl.tail (.add (leaf _) h₁)).tail (.add ?_ h₂)).tail (.remove h₃)).tail
    (.add (leaf _) h₄)
  exact .command ((CommandDraft.Drafted.literal "a").child (leaf _) rfl)

/-- The node is there without children, and takes none any more. -/
theorem redirectsChildless_of_drafted_and_of_reachable_afterRemoval :
    ∃ tree : Tree Unit, redirectedAfterRemoval = .ok tree ∧ tree.Reachable ∧ redirected.Drafted ∧
      tree.redirect? 2 = some 1 ∧ tree.children 2 = .ok [] ∧
      (tree.add 2 redirected).map Prod.snd = .error .childUnderRedirect ∧
      redirected.RedirectsChildless ∧ tree.RedirectsChildless := by
  have hrun : redirectedAfterRemoval.map (fun tree => decide (tree.redirect? 2 = some 1 ∧
      tree.children 2 = .ok [] ∧
      (tree.add 2 redirected).map Prod.snd = .error .childUnderRedirect)) = .ok true := by
    decide +kernel
  obtain ⟨tree, h, hd⟩ := exists_of_map_eq_ok hrun
  obtain ⟨hr, hchildren, hadd⟩ := of_decide_eq_true hd
  have hreach := reachable_of_redirectedAfterRemoval h
  have hdrafted : redirected.Drafted := Spec.drafted_of_no_children _ none
  obtain ⟨hspecs, htrees⟩ := @redirectsChildless_of_drafted_and_of_reachable Unit
  exact ⟨tree, h, hreach, hdrafted, hr, hchildren, hadd, hspecs redirected hdrafted,
    htrees tree hreach⟩

end CommandGrammar
