import CommandGrammar.Proofs.Dispatcher.Alias

/-!
# Restricted commands

The requirement of a node says in which contexts it may be used. Every literal, argument and flag of
a line is checked in this way where it is read, but nobody checks the target of a redirect: a line
that ends at an alias runs the command of the target, if only the alias may be used.

Main statement: nothing else goes wrong (`Dispatcher.keepsRestrictions_iff_of_reachable`). The
commands of a dispatcher are run only in contexts that their nodes accept exactly if this holds for
the lines that end at a redirect. It does hold if the target of every redirect accepts the contexts
that the redirected node accepts, and for an alias below the root it must.
-/

namespace CommandGrammar

variable {κ : Type}

/-- The node at a place has a command. -/
def Tree.HasCommand (tree : Tree κ) (id : NodeId) : Prop :=
  ∃ node command, tree.node? id = some node ∧ node.command? = some command

/-- Wherever a redirected node may be used, so may the target of its redirect. -/
def Tree.RedirectsRestrict (tree : Tree κ) : Prop :=
  ∀ id target, tree.redirect? id = some target → ∀ context,
    tree.canUse id context = .ok true → tree.canUse target context = .ok true

namespace Dispatcher

variable {d : Dispatcher κ} {context : Context} {line name : String} {id target : NodeId}
  {command : κ} {bindings : Bindings}

/-- A line is used up, and the node at a place is its last literal or argument. -/
def EndsAt (d : Dispatcher κ) (context : Context) (line : String) (id : NodeId) : Prop :=
  ∃ m front v back, d.LastPiece context line m front v back ∧ v.id = id

/-- A command is run only in contexts that its node accepts. -/
def KeepsRestrictions (d : Dispatcher κ) : Prop :=
  ∀ context line id command bindings, d.RunsAt context line id command bindings →
    d.tree.canUse id context = .ok true

/-- The last literal or argument of a line may be used. -/
theorem EndsAt.canUse_eq (h : d.EndsAt context line id) :
    d.tree.canUse id context = .ok true := by
  obtain ⟨m, front, v, back, hlast, rfl⟩ := h
  exact hlast.visits.canUse_eq

/-- A line runs the command to which its last literal or argument leads. -/
theorem RunsAt.exists_endsAt (h : d.Reachable) (hr : d.RunsAt context line id command bindings) :
    ∃ last, d.EndsAt context line last ∧ d.tree.onward last = id := by
  obtain ⟨m, front, v, back, hlast, honward, -⟩ := exists_last_piece h hr
  exact ⟨v.id, ⟨m, front, v, back, hlast, rfl⟩, honward⟩

theorem EndsAt.exists_runsAt (h : d.EndsAt context line id)
    (hc : d.tree.HasCommand (d.tree.onward id)) :
    ∃ command bindings, d.RunsAt context line (d.tree.onward id) command bindings := by
  obtain ⟨m, front, v, back, hlast, rfl⟩ := h
  obtain ⟨node, command, hn, hcommand⟩ := hc
  rw [← hlast.node_eq] at hn ⊢
  exact ⟨command, _, runsAt_of_parse hlast.parse hlast.complete hn hcommand⟩

/-- The name of an alias below the root runs the command of the target. -/
theorem exists_runsAt_of_alias (h : d.Reachable) (hname : d.tree.TopLiteral name id)
    (ht : IsToken name) (hr : d.tree.redirect? id = some target)
    (hc : d.tree.HasCommand target) (hu : d.tree.canUse id context = .ok true) :
    ∃ command bindings, d.RunsAt context name target command bindings := by
  obtain ⟨node, command, hn, hcommand⟩ := hc
  have hchild : node.isChild = true := by
    rw [Node.isChild, Option.isSome_iff_ne_none]
    intro hs
    rw [Node.command?, Node.ending?, hs] at hcommand
    cases hcommand
  have hmatch := Tree.matchAt_of_topLiteral h.tree.wellFormed hname hu ht endsToken_empty
    (show (Cursor.atStart "").nextPart? = some (.atStart "") from rfl)
  rw [Tree.onward_of_redirect? hr, Tree.matchFrom_of_end hn rfl, if_pos hchild,
    String.append_empty] at hmatch
  exact ⟨command, _, runsAt_of_parse hmatch rfl hn hcommand⟩

/-- Only a line that ends at a redirect can run a command that its context does not accept. -/
theorem keepsRestrictions_iff (h : d.Reachable) :
    d.KeepsRestrictions ↔
      ∀ context line id target, d.EndsAt context line id → d.tree.redirect? id = some target →
        d.tree.HasCommand target → d.tree.canUse target context = .ok true := by
  constructor
  · intro hkeeps context line id target hend hr hc
    rw [← Tree.onward_of_redirect? hr] at hc ⊢
    obtain ⟨command, bindings, hruns⟩ := hend.exists_runsAt hc
    exact hkeeps _ _ _ _ _ hruns
  · intro hends context line id command bindings hruns
    obtain ⟨last, hend, rfl⟩ := hruns.exists_endsAt h
    cases hr : d.tree.redirect? last with
    | none =>
      rw [Tree.onward_of_redirect?_none hr]
      exact hend.canUse_eq
    | some target =>
      rw [Tree.onward_of_redirect? hr] at hruns ⊢
      obtain ⟨node, hn, hcommand⟩ := hruns.exists_node
      exact hends context line last target hend hr ⟨node, command, hn, hcommand⟩

theorem keepsRestrictions_of_redirectsRestrict (h : d.Reachable)
    (hrestrict : d.tree.RedirectsRestrict) : d.KeepsRestrictions := by
  refine (keepsRestrictions_iff h).2 ?_
  intro context line id target hend hr _
  exact hrestrict id target hr context hend.canUse_eq

/-- **Only a line that ends at a redirect can run a command that its context does not accept.** If
the target of every redirect accepts what the redirected node accepts, then none does; and if none
does, then the target of every alias below the root accepts what the alias accepts. -/
theorem keepsRestrictions_iff_of_reachable (h : d.Reachable) :
    (d.KeepsRestrictions ↔
      ∀ context line id target, d.EndsAt context line id → d.tree.redirect? id = some target →
        d.tree.HasCommand target → d.tree.canUse target context = .ok true) ∧
    (d.tree.RedirectsRestrict → d.KeepsRestrictions) ∧
    (d.KeepsRestrictions → ∀ name id target, d.tree.TopLiteral name id → IsToken name →
      d.tree.redirect? id = some target → d.tree.HasCommand target → ∀ context,
        d.tree.canUse id context = .ok true → d.tree.canUse target context = .ok true) := by
  refine ⟨keepsRestrictions_iff h, keepsRestrictions_of_redirectsRestrict h, ?_⟩
  intro hkeeps name id target hname ht hr hc context hu
  obtain ⟨command, bindings, hruns⟩ := exists_runsAt_of_alias h hname ht hr hc hu
  exact hkeeps _ _ _ _ _ hruns

/-- Whether the context says who is an administrator. -/
def knowsAdmin : Requirement := fun context => context.contains (⟨"admin"⟩ : Key .bool)

/-- A literal with a command for administrators, and an alias with a requirement of its own. -/
def secretWithAlias (accepts : Requirement) : Except Violation (Dispatcher Unit) := do
  let secret ← (literal "secret").executes ()
  let (d, id) ← ({} : Dispatcher Unit).register (secret.requires knowsAdmin)
  let s ← (literal "s").redirects id
  let (d, _) ← d.register (s.requires accepts)
  return d

theorem reachable_of_secretWithAlias {accepts : Requirement} {d : Dispatcher Unit}
    (h : secretWithAlias accepts = .ok d) : d.Reachable := by
  obtain ⟨secret, hsecret, h⟩ := exists_of_bind_eq_ok h
  obtain ⟨⟨d₁, id⟩, h₁, h⟩ := exists_of_bind_eq_ok h
  obtain ⟨s, hs, h⟩ := exists_of_bind_eq_ok h
  obtain ⟨⟨d₂, _⟩, h₂, h⟩ := exists_of_bind_eq_ok h
  cases h
  have hsecret := ((CommandDraft.Drafted.literal "secret").executes hsecret).requires knowsAdmin
  have hs := ((CommandDraft.Drafted.literal "s").redirects hs).requires accepts
  exact ((Reachable.start {}).register hsecret h₁).register hs h₂

/-- An alias with the requirement of its target keeps the restriction, and still runs the command. -/
theorem keepsRestrictions_iff_of_reachable_secretWithAlias :
    ∃ d : Dispatcher Unit, secretWithAlias knowsAdmin = .ok d ∧ d.Reachable ∧
      d.tree.RedirectsRestrict ∧ d.KeepsRestrictions ∧
      (d.command? (Context.empty.put (⟨"admin"⟩ : Key .bool) true) "s").map Prod.fst = some () ∧
      d.command? .empty "s" = none := by
  have hredirect : (secretWithAlias knowsAdmin).map (fun d => decide (∀ id < d.tree.size,
      ∀ target ∈ d.tree.redirect? id, id = 2 ∧ target = 1)) = .ok true := by
    decide +kernel
  have hnodes : (secretWithAlias knowsAdmin).map (fun d =>
      ((d.tree.node? 1).map Node.requirement, (d.tree.node? 2).map Node.requirement)) =
        .ok (some (some knowsAdmin), some (some knowsAdmin)) := rfl
  have hrun : (secretWithAlias knowsAdmin).map (fun d =>
      ((d.command? (Context.empty.put (⟨"admin"⟩ : Key .bool) true) "s").map Prod.fst,
        (d.command? .empty "s").isSome)) = .ok (some (), false) := by
    cbv
  obtain ⟨d, h, hd⟩ := exists_of_map_eq_ok hredirect
  rw [h] at hnodes hrun
  obtain ⟨hn₁, hn₂⟩ := Prod.mk.inj (Except.ok.inj hnodes)
  obtain ⟨hadmin, hnone⟩ := Prod.mk.inj (Except.ok.inj hrun)
  obtain ⟨secret, hsecret, hr₁⟩ := Option.map_eq_some_iff.1 hn₁
  obtain ⟨s, hs, hr₂⟩ := Option.map_eq_some_iff.1 hn₂
  have hreach := reachable_of_secretWithAlias h
  have hrestrict : d.tree.RedirectsRestrict := by
    intro id target hr context hu
    obtain ⟨symbol, hsymbol, -⟩ := Option.bind_eq_some_iff.1 hr
    obtain ⟨rfl, rfl⟩ :=
      of_decide_eq_true hd id (Tree.lt_size_of_symbol? hsymbol) target hr
    obtain ⟨node, hn, hu⟩ := Tree.canUse_eq_ok.1 hu
    obtain rfl := Option.some.inj (hs.symm.trans hn)
    refine Tree.canUse_eq_ok.2 ⟨secret, hsecret, ?_⟩
    rw [Node.canUse, hr₁, ← hr₂]
    exact hu
  refine ⟨d, h, hreach, hrestrict, (keepsRestrictions_iff_of_reachable hreach).2.1 hrestrict,
    hadmin, by simpa using hnone⟩

/-- **Through an alias that everybody may use, everybody runs a restricted command.** -/
theorem exists_restricted_run_through_alias :
    ∃ d : Dispatcher Unit, secretWithAlias (fun _ => true) = .ok d ∧ d.Reachable ∧
      d.command? .empty "secret" = none ∧
      (∃ bindings, d.RunsAt .empty "s" 1 () bindings) ∧
      d.tree.canUse 1 .empty = .ok false ∧ ¬ d.KeepsRestrictions := by
  have hrun : (secretWithAlias fun _ => true).map (fun d =>
      ((d.command? .empty "secret").isSome, (d.parse .empty "s").map
        (Option.map fun m => (m.node, m.isComplete)), d.tree.canUse 1 .empty,
        (d.tree.node? 1).map Node.command?)) =
          .ok (false, .ok (some (1, true)), .ok false, some (some ())) := by
    cbv
  obtain ⟨d, h, hd⟩ := exists_of_map_eq_ok hrun
  obtain ⟨hnone, hd⟩ := Prod.mk.inj hd
  obtain ⟨hparse, hd⟩ := Prod.mk.inj hd
  obtain ⟨hu, hcommand⟩ := Prod.mk.inj hd
  obtain ⟨m?, hp, hm⟩ := exists_of_map_eq_ok hparse
  obtain ⟨m, rfl, he⟩ := Option.map_eq_some_iff.1 hm
  obtain ⟨hnode, hcomplete⟩ := Prod.mk.inj he
  obtain ⟨node, hn, hc⟩ := Option.map_eq_some_iff.1 hcommand
  have hruns : d.RunsAt .empty "s" 1 () m.trail.toBindings := by
    rw [← hnode] at hn ⊢
    exact runsAt_of_parse hp hcomplete hn hc
  refine ⟨d, h, reachable_of_secretWithAlias h, by simpa using hnone, ⟨_, hruns⟩, hu, ?_⟩
  intro hkeeps
  have hallowed := hkeeps _ _ _ _ _ hruns
  rw [hu] at hallowed
  cases hallowed

end Dispatcher

end CommandGrammar
