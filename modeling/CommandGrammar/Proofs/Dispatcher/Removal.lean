import CommandGrammar.Proofs.Dispatcher.Anchor
import CommandGrammar.Proofs.Dispatcher.Hidden
import CommandGrammar.Proofs.Grammar.Fresh

/-!
# Commands that come and go

A removed command stays in the array, with everything below it, and redirects from elsewhere may
still lead there. What is left of it is out of the way all the same.

Main statement: `Dispatcher.removesCleanly_of_redirectsLead`. Without a literal below the root every
line is read and executed as before, unless it begins with the name of the literal. A command that
is registered under a free name and removed again leaves every line and the usage of the root as
they were. And where a command has been removed, another one of its name grows from nothing
(`Tree.Planted`).

In the second case the nodes of before are all what they were. Redirects lead to literals and
arguments that were there then, so no search leaves these nodes (`Dispatcher.OnTop.agreesOn`), and the
new ones behind them are never met.
-/

namespace CommandGrammar

open Relation

variable {κ : Type}

namespace Dispatcher

variable {d d' d₁ d₂ : Dispatcher κ} {draft : CommandDraft κ} {context : Context}
  {line name : String} {id old other : NodeId}

theorem register_eq_ok (h : d.register draft = .ok (d', id)) :
    d.tree.add Tree.root draft.toSpec = .ok (d'.tree, id) ∧ d'.style = d.style := by
  obtain ⟨⟨tree, id⟩, ha, h⟩ := exists_of_bind_eq_ok h
  cases h
  exact ⟨ha, rfl⟩

theorem exists_register_of_add {tree : Tree κ}
    (h : d.tree.add Tree.root draft.toSpec = .ok (tree, id)) :
    d.register draft = .ok ({ d with tree }, id) := by
  rw [register, h]
  rfl

theorem exists_remove_of_tree {tree : Tree κ} {id? : Option NodeId}
    (h : d.tree.remove Tree.root name = .ok (tree, id?)) :
    d.remove name = .ok ({ d with tree }, id?) := by
  rw [remove, h]
  rfl

/-- Two dispatchers read a line alike, and do the same when they execute it. -/
def ReadsAlike (d d' : Dispatcher κ) (context : Context) (line : String) : Prop :=
  d'.parse context line = d.parse context line ∧
    ∀ (σ : Type) (run : κ → Bindings → Action σ Unit),
      d'.execute run context line = d.execute run context line

/-! ### Nodes behind all others -/

/-- A dispatcher has the nodes of another one, and maybe more behind them. -/
structure OnTop (d d' : Dispatcher κ) : Prop where
  /-- There are as many nodes or more. -/
  size : d.tree.size ≤ d'.tree.size
  /-- Those of before are the same. -/
  node? : ∀ id, id < d.tree.size → d'.tree.node? id = d.tree.node? id
  /-- The style is the same. -/
  style : d'.style = d.style

namespace OnTop

/-- Neither children nor redirects lead from the old nodes to the others. -/
theorem agreesOn (h : d.OnTop d') (hw : d.tree.WellFormed) (hstay : d.tree.RedirectsStay) :
    d.tree.AgreesOn d'.tree (· < d.tree.size) where
  node id hid := by
    obtain ⟨node, hn⟩ := Tree.exists_node?_of_lt_size hid
    rw [Tree.node_eq_ok.2 hn, Tree.node_eq_ok.2 ((h.node? id hid).trans hn)]
  child _ _ _ hc := (hw.bounds_of_isChild hc).2
  redirect id _ target _ hn hr := hstay id target ((Tree.redirect?_of_node? hn).trans hr)

section

variable (h : d.OnTop d') (hd : d.Reachable) (hlead : d.tree.RedirectsLead)
include h hd hlead

theorem parse_eq (context : Context) (line : String) :
    d'.parse context line = d.parse context line :=
  (h.agreesOn hd.tree.wellFormed hlead.stay).matchFrom_eq hd.tree.wellFormed context
    hd.tree.wellFormed.root none _ _

/-- What is matched selects the same. -/
theorem select_eq (context : Context) (line : String) :
    d'.select context line = d.select context line := by
  rw [select, select, h.parse_eq hd hlead]
  rcases hp : d.parse context line with failure | _ | m
  · rfl
  · rfl
  · simp only
    cases hm : m.isComplete with
    | false => rw [selectMatch_of_not_isComplete hm, selectMatch_of_not_isComplete hm]
    | true =>
      have hlt := Tree.lt_size_of_isTarget (isTarget_of_isComplete hd hlead hp hm)
      rw [selectMatch, selectMatch, (h.agreesOn hd.tree.wellFormed hlead.stay).node m.node hlt]

/-- **More nodes behind all others make no difference to any line.** -/
theorem readsAlike (context : Context) (line : String) : d.ReadsAlike d' context line := by
  refine ⟨h.parse_eq hd hlead context line, fun σ run => ?_⟩
  rw [execute, execute, h.select_eq hd hlead]

/-- Nor to the usage of the root. -/
theorem usage_eq (context : Context) : d'.usage context Tree.root = d.usage context Tree.root := by
  have hw := hd.tree.wellFormed
  rw [usage, usage, h.style]
  exact (h.agreesOn hw hlead.stay).usage_eq hw h.size d.style context hw.root

end

end OnTop

/-! ### Removing commands -/

/-- After a removal the name is free. -/
theorem child?_eq_none_of_remove (hr : d.remove name = .ok (d₁, some old)) :
    d₁.tree.child? Tree.root name = .ok none := by
  obtain ⟨owner, -, -, ho, -⟩ := Tree.exists_of_remove (remove_tree hr)
  refine Tree.child?_eq_ok_none_iff.2 ⟨_, ho, ?_⟩
  simp [Children.erase, Table.find?_erase]

/-- A literal below the root can be removed, and only lines that begin with its name can tell. -/
theorem exists_remove_of_topLiteral (h : d.Reachable) (hlead : d.tree.RedirectsLead)
    (hname : d.tree.TopLiteral name id) :
    ∃ d', d.remove name = .ok (d', some id) ∧ d'.tree.child? Tree.root name = .ok none ∧
      ∀ context line, ¬ BeginsWith line name → d.ReadsAlike d' context line := by
  obtain ⟨tree', hremove⟩ :=
    Tree.exists_remove_of_child (Tree.TopLiteral.child?_eq h.tree.wellFormed hname)
  have hr := exists_remove_of_tree hremove
  refine ⟨_, hr, child?_eq_none_of_remove hr, fun context line hline => ?_⟩
  have hparse : Dispatcher.parse _ context line = d.parse context line :=
    parse_eq_of_not_beginsWith h hlead.belowRoot hname hr hline
  exact ⟨hparse, fun σ run => execute_eq_of_remove hr hparse run⟩

/-- What is registered under a free name can be removed, and then everything is as before. -/
theorem exists_remove_of_register (hw : d.tree.WellFormed)
    (hf : d.tree.child? Tree.root draft.toSpec.name = .ok none)
    (hr : d.register draft = .ok (d₁, id)) :
    ∃ d₂, d₁.remove draft.toSpec.name = .ok (d₂, some id) ∧ d.OnTop d₂ := by
  obtain ⟨ha, hstyle⟩ := register_eq_ok hr
  obtain ⟨tree', hremove, hsize, hnode⟩ := Tree.exists_remove_of_add hw hf ha
  exact ⟨_, exists_remove_of_tree hremove, hsize, hnode, hstyle⟩

/-- A command that fits is registered, if its name is free. -/
theorem exists_register_of_fits (hw : d.tree.WellFormed) (hdraft : draft.Drafted)
    (hfits : draft.toSpec.Fits d.tree)
    (hf : d.tree.child? Tree.root draft.toSpec.name = .ok none) :
    ∃ d' id, d.register draft = .ok (d', id) := by
  obtain ⟨owner, ho, hf⟩ := Tree.child?_eq_ok_none_iff.1 hf
  obtain ⟨_, ho', hchild⟩ := hw.exists_root
  obtain rfl := Option.some.inj (ho.symm.trans ho')
  have hnone : owner.redirect? = none := by
    have hs : owner.symbol? = none := by simpa [Node.isChild] using hchild
    rw [Node.redirect?, Node.ending?, hs]
    rfl
  obtain ⟨tree', id, ha⟩ := Tree.exists_add_of_fits hw hfits
    (Spec.Drafted.command hdraft).redirectsChildless ho hnone hf
  exact ⟨_, id, exists_register_of_add ha⟩

/-- Nothing below what has been registered since was there before. -/
theorem not_below_of_planted (hw : d.tree.WellFormed) (hid : old < d.tree.size)
    (hsize : d₁.tree.size = d.tree.size)
    (hplanted : d₁.tree.Planted draft.toSpec d₂.tree id)
    (hbelow : ReflTransGen d₂.tree.IsChild id other) : ¬ ReflTransGen d.tree.IsChild old other := by
  intro hold
  have hlt : other < d.tree.size := by
    obtain rfl | ⟨parent, -, hc⟩ := hold.cases_tail
    · exact hid
    · exact (hw.bounds_of_isChild hc).2
  have hnew := ((hplanted.below other).1 hbelow).1
  exact Nat.not_lt_of_le (hsize ▸ hnew) hlt

/-- Removing commands of a dispatcher disturbs nothing else. -/
structure RemovesCleanly (d : Dispatcher κ) : Prop where
  /-- A literal below the root can be removed. Then its name is free, and only lines that begin with
  it may be read in another way. -/
  elsewhere : ∀ name id, d.tree.TopLiteral name id →
    ∃ d', d.remove name = .ok (d', some id) ∧ d'.tree.child? Tree.root name = .ok none ∧
      ∀ context line, ¬ BeginsWith line name → d.ReadsAlike d' context line
  /-- Under a free name a command that fits can be registered. -/
  accepted : ∀ draft : CommandDraft κ, draft.Drafted → draft.toSpec.Fits d.tree →
    d.tree.child? Tree.root draft.toSpec.name = .ok none → ∃ d₁ id, d.register draft = .ok (d₁, id)
  /-- Whatever was registered under a free name can be removed, and then every line and the usage of
  the root are as before. -/
  undone : ∀ (draft : CommandDraft κ) d₁ id,
    d.tree.child? Tree.root draft.toSpec.name = .ok none → d.register draft = .ok (d₁, id) →
    ∃ d₂, d₁.remove draft.toSpec.name = .ok (d₂, some id) ∧
      (∀ context line, d.ReadsAlike d₂ context line) ∧
      ∀ context, d₂.usage context Tree.root = d.usage context Tree.root
  /-- After a removal a command of the same name that fits can be registered. -/
  replaceable : ∀ name old d₁, d.remove name = .ok (d₁, some old) →
    ∀ draft : CommandDraft κ, draft.toSpec.name = name → draft.Drafted →
      draft.toSpec.Fits d.tree → ∃ d₂ id, d₁.register draft = .ok (d₂, id)
  /-- Whatever was registered under the name grows from nothing: what lies below it is new, and none
  of it lay below the command of before. -/
  replaced : ∀ name old d₁, d.remove name = .ok (d₁, some old) →
    ∀ (draft : CommandDraft κ) d₂ id, draft.toSpec.name = name → d₁.register draft = .ok (d₂, id) →
      d₁.tree.Planted draft.toSpec d₂.tree id ∧
      ∀ other, ReflTransGen d₂.tree.IsChild id other → ¬ ReflTransGen d.tree.IsChild old other

/-- **Removing a command is clean** in every dispatcher that can be built, as long as its redirects
lead to literals or arguments. -/
theorem removesCleanly_of_redirectsLead (h : d.Reachable) (hlead : d.tree.RedirectsLead) :
    d.RemovesCleanly := by
  have hw := h.tree.wellFormed
  refine ⟨fun name id hname => exists_remove_of_topLiteral h hlead hname,
    fun draft hdraft hfits hf => exists_register_of_fits hw hdraft hfits hf, ?undone, ?replaceable,
    ?replaced⟩
  case undone =>
    intro draft d₁ id hf hr
    obtain ⟨d₂, hremove, htop⟩ := exists_remove_of_register hw hf hr
    exact ⟨d₂, hremove, fun context line => htop.readsAlike h hlead context line,
      fun context => htop.usage_eq h hlead context⟩
  case replaceable =>
    rintro name old d₁ hr draft rfl hdraft hfits
    have hchanges := Tree.changes_of_edit (.remove (remove_tree hr))
    refine exists_register_of_fits (hw.changes hchanges) hdraft (hfits.mono fun id ht => ?_)
      (child?_eq_none_of_remove hr)
    exact Tree.isTarget_mono_of_changes hchanges ht
  case replaced =>
    rintro name old d₁ hr draft d₂ id rfl hregister
    have hw₁ := hw.changes (Tree.changes_of_edit (.remove (remove_tree hr)))
    obtain ⟨owner, ho, hold, -, hsame⟩ := Tree.exists_of_remove (remove_tree hr)
    have hlt := (hw.bounds_of_isChild (hw.isChild_of_byName ho hold).1).2
    have hplanted :=
      Tree.planted_of_add hw₁ (child?_eq_none_of_remove hr) (register_eq_ok hregister).1
    exact ⟨hplanted, fun other hbelow => not_below_of_planted hw hlt hsame.size hplanted hbelow⟩

/-- The alias outlives what it stands for: its line still ends at the removed literal, and a new
literal of that name has nothing to do with it. -/
theorem removesCleanly_of_redirectsLead_listWithAlias :
    ∃ (d d₁ d₂ : Dispatcher Unit) (id : NodeId), listWithAlias = .ok d ∧ d.Reachable ∧
      d.tree.RedirectsLead ∧ d.RemovesCleanly ∧ d.tree.TopLiteral "list" 1 ∧
      d.remove "list" = .ok (d₁, some 1) ∧ ¬ BeginsWith "l -v -w" "list" ∧
      (d₁.parse .empty "l -v -w").map (Option.map Match.node) = .ok (some 1) ∧
      d₁.register (literal "list") = .ok (d₂, id) ∧
      d₁.tree.Planted (literal "list").toSpec d₂.tree id ∧ ¬ ReflTransGen d.tree.IsChild 1 id := by
  have hlead : listWithAlias.map (fun d => decide d.tree.RedirectsLead) = .ok true := by
    decide +kernel
  have hrun : listWithAlias.map (fun d => ((d.parse .empty "l -v -w").map (Option.map Match.node),
      (d.tree.node? Tree.root).map (·.children.literals.find? "list"))) =
        .ok (.ok (some 1), some (some 1)) := by
    cbv
  obtain ⟨d, h, hd⟩ := exists_of_map_eq_ok hlead
  have hlead := of_decide_eq_true hd
  have hreach := reachable_of_listWithAlias h
  rw [h] at hrun
  obtain ⟨hline, hlist⟩ := Prod.mk.inj (Except.ok.inj hrun)
  obtain ⟨owner, ho, hlist⟩ := Option.map_eq_some_iff.1 hlist
  have htop := (Tree.topLiteral_iff hreach.tree.wellFormed).2 ⟨owner, ho, hlist⟩
  have hclean := removesCleanly_of_redirectsLead hreach hlead
  have hother : ¬ BeginsWith "l -v -w" "list" := by decide
  obtain ⟨d₁, hremove, -, hlines⟩ := hclean.elsewhere "list" 1 htop
  have hfits : (literal "list" : CommandDraft Unit).toSpec.Fits d.tree :=
    Spec.fits_of_no_children rfl rfl
  obtain ⟨d₂, id, hregister⟩ := hclean.replaceable "list" 1 d₁ hremove (literal "list") rfl
    (.literal "list") hfits
  obtain ⟨hplanted, hnew⟩ := hclean.replaced "list" 1 d₁ hremove (literal "list") d₂ id rfl hregister
  refine ⟨d, d₁, d₂, id, h, hreach, hlead, hclean, htop, hremove, hother, ?_, hregister, hplanted,
    hnew id .refl⟩
  rw [(hlines .empty "l -v -w" hother).1, hline]

end Dispatcher

end CommandGrammar
