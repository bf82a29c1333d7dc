import CommandGrammar.Proofs.Dispatcher.Run
import CommandGrammar.Proofs.Grammar.Union

/-!
# Matches that are kept

A match refers to a node by its place, and may be kept while commands are registered and removed. A
place keeps its node, and whatever is called the node stays what it is: its kind, its requirement, a
command and a redirect that it has do not change any more (`Node.Retains`). Only its children do, and
a command or a redirect that it does not have yet may come.

Main statement: `Dispatcher.keptMatches_of_calls`. A match that is settled, since it does not use up
its line or its node has a command, does after any number of calls what it would have done before
(`Dispatcher.Settles`).
-/

namespace CommandGrammar

open Relation

variable {κ : Type}

/-! ### What no call changes -/

/-- The children of a node have no part in what it is. -/
theorem Node.retains_children (node : Node κ) (children : Children) :
    node.Retains { node with children } :=
  ⟨rfl, rfl, fun _ h => h, fun _ h => h⟩

namespace Tree

variable {tree tree' : Tree κ}

/-- Every node that is there stays what it is. -/
def Retains (tree tree' : Tree κ) : Prop :=
  ∀ id old, tree.node? id = some old → ∃ new, tree'.node? id = some new ∧ old.Retains new

theorem Retains.refl (tree : Tree κ) : tree.Retains tree := fun _ old h => ⟨old, h, .refl old⟩

theorem Retains.trans {before now later : Tree κ} (h : before.Retains now)
    (h' : now.Retains later) : before.Retains later :=
  exists_node?_trans Node.Retains.trans h h'

theorem NodesKeep.retains (h : tree.NodesKeep tree') : tree.Retains tree' := by
  intro id old hold
  obtain ⟨new, hnew, hkeeps⟩ := h id old hold
  exact ⟨new, hnew, hkeeps.toRetains⟩

/-- **No elementary change takes anything from a node but a child.** -/
theorem Change.retains (h : Change tree tree') : tree.Retains tree' := by
  cases h with
  | @insert parent owner symbol requirement ho _ _ _ =>
    exact (nodesKeep_insert ho symbol requirement).retains
  | absorb _ _ hn hs hr => exact (nodesKeep_modify_symbol hn hs hr).retains
  | @erase parent id owner name _ _ =>
    intro other old hold
    rw [node?_modify, hold]
    split
    · exact ⟨_, rfl, old.retains_children (old.children.erase name id)⟩
    · exact ⟨old, rfl, .refl old⟩

theorem retains_of_changes (h : ReflTransGen Change tree tree') : tree.Retains tree' := by
  induction h with
  | refl => exact .refl tree
  | tail _ hc ih => exact ih.trans hc.retains

end Tree

/-! ### Calls on a dispatcher -/

namespace Dispatcher

variable {d d' : Dispatcher κ} {m : Match}

/-- A command is registered or removed, and no rule is broken. -/
inductive Call (d : Dispatcher κ) : Dispatcher κ → Prop where
  /-- A command is registered. -/
  | register {d' : Dispatcher κ} {draft : CommandDraft κ} {id : NodeId} :
      d.register draft = .ok (d', id) → Call d d'
  /-- The command of a name, if there is one, is removed. -/
  | remove {d' : Dispatcher κ} {name : String} {id? : Option NodeId} :
      d.remove name = .ok (d', id?) → Call d d'

theorem Call.changes (h : d.Call d') : ReflTransGen Tree.Change d.tree d'.tree := by
  cases h with
  | register h =>
    obtain ⟨⟨tree, id⟩, ha, h⟩ := exists_of_bind_eq_ok h
    cases h
    exact Tree.changes_of_add ha
  | remove h =>
    obtain ⟨⟨tree, id?⟩, hr, h⟩ := exists_of_bind_eq_ok h
    cases h
    exact Tree.changes_of_edit (.remove hr)

/-- **Every node of a dispatcher stays what it is, whatever is registered or removed.** -/
theorem retains_of_calls (h : ReflTransGen Call d d') : d.tree.Retains d'.tree := by
  induction h with
  | refl => exact .refl d.tree
  | tail _ hc ih => exact ih.trans (Tree.retains_of_changes hc.changes)

/-! ### What a kept match does -/

/-- Nothing that comes can change what a match does: it does not use up its line, or it ends at a
flag, or at a node with a command. -/
def Settles (d : Dispatcher κ) (m : Match) : Prop :=
  m.isComplete = false ∨ ∃ node, d.tree.node? m.node = some node ∧
    (node.isFlag = true ∨ ∃ command, node.command? = some command)

theorem selectMatch_of_isFlag {node : Node κ} (h : m.isComplete = true)
    (hn : d.tree.node? m.node = some node) (hf : node.isFlag = true) :
    d.selectMatch m = .error (.parse ⟨.unknownArgument, m.cursor⟩) := by
  have hr : ¬ m.cursor.readable = true := by simpa [Match.isComplete] using h
  rw [selectMatch, if_neg hr, Tree.node_eq_ok.2 hn]
  simp only [hf, ↓reduceIte]

/-- A match that selects a command does so wherever its node stays what it is. -/
theorem selectMatch_eq_of_retains {command : κ} {bindings : Bindings}
    (h : d.tree.Retains d'.tree) (hs : d.selectMatch m = .ok (some (command, bindings))) :
    d'.selectMatch m = .ok (some (command, bindings)) := by
  obtain ⟨hm, hb, node, hn, hc⟩ := selectMatch_eq_ok_some_iff.1 hs
  obtain ⟨new, hnew, hretains⟩ := h m.node node hn
  exact selectMatch_eq_ok_some_iff.2 ⟨hm, hb, new, hnew, hretains.command command hc⟩

/-- A settled match selects the same wherever its node stays what it is. -/
theorem Settles.selectMatch_eq (hm : d.Settles m) (h : d.tree.Retains d'.tree) :
    d'.selectMatch m = d.selectMatch m := by
  cases hcomplete : m.isComplete with
  | false => rw [selectMatch_of_not_isComplete hcomplete, selectMatch_of_not_isComplete hcomplete]
  | true =>
    obtain ⟨node, hn, hcase⟩ := hm.resolve_left (by simp [hcomplete])
    rcases hcase with hf | ⟨command, hc⟩
    · obtain ⟨new, hnew, hretains⟩ := h m.node node hn
      have hf' : new.isFlag = true := by
        rw [Node.isFlag_eq, hretains.kind, ← Node.isFlag_eq, hf]
      rw [selectMatch_of_isFlag hcomplete hn hf, selectMatch_of_isFlag hcomplete hnew hf']
    · have hs := selectMatch_eq_ok_some_iff.2 ⟨hcomplete, rfl, node, hn, hc⟩
      rw [hs, selectMatch_eq_of_retains h hs]

/-- A match that was kept, and whose node had a command, runs that command. -/
theorem executeMatch_of_calls {σ : Type} {node : Node κ} {command : κ} (h : ReflTransGen Call d d')
    (run : κ → Bindings → Action σ Unit) (hm : m.isComplete = true)
    (hn : d.tree.node? m.node = some node) (hc : node.command? = some command) :
    d'.executeMatch run m = run command m.trail.toBindings := by
  have hs := selectMatch_eq_ok_some_iff.2 ⟨hm, rfl, node, hn, hc⟩
  exact executeMatch_of_selectMatch_some run (selectMatch_eq_of_retains (retains_of_calls h) hs)

/-- **Nodes and kept matches outlive every registration and removal.** Every node stays what it is. A
match that does not use up its line gives the same error at the same place, and one whose node had a
command runs that command with the bindings that it was kept with. -/
theorem keptMatches_of_calls (h : ReflTransGen Call d d') :
    d.tree.Retains d'.tree ∧
    (∀ m : Match, m.isComplete = false → ∃ kind,
      d.selectMatch m = .error (.parse ⟨kind, m.cursor⟩) ∧
        d'.selectMatch m = .error (.parse ⟨kind, m.cursor⟩)) ∧
    (∀ (m : Match) node command, m.isComplete = true → d.tree.node? m.node = some node →
      node.command? = some command →
        d.selectMatch m = .ok (some (command, m.trail.toBindings)) ∧
          d'.selectMatch m = .ok (some (command, m.trail.toBindings))) ∧
    (∀ m : Match, d.Settles m → ∀ (σ : Type) (run : κ → Bindings → Action σ Unit),
      d'.executeMatch run m = d.executeMatch run m) := by
  have hretains := retains_of_calls h
  refine ⟨hretains, fun m hm => ?_, fun m node command hm hn hc => ?_, fun m hm σ run => ?_⟩
  · exact ⟨_, selectMatch_of_not_isComplete hm, selectMatch_of_not_isComplete hm⟩
  · have hs := selectMatch_eq_ok_some_iff.2 ⟨hm, rfl, node, hn, hc⟩
    exact ⟨hs, selectMatch_eq_of_retains hretains hs⟩
  · rw [executeMatch, hm.selectMatch_eq hretains, executeMatch]

/-- A dispatcher with one command. -/
def fooRunsOne : Except Violation (Dispatcher Nat) := do
  let draft ← (literal "foo").executes 1
  let (d, _) ← register {} draft
  return d

/-- Its command is removed, and another one of the same name is registered, which is then merged with
a third one. -/
def replaceFoo (d : Dispatcher Nat) : Except Violation (Dispatcher Nat) := do
  let (d, _) ← d.remove "foo"
  let draft ← (literal "foo").executes 2
  let (d, _) ← d.register draft
  let draft ← (literal "foo").child (literal "bar").toSpec
  let (d, _) ← d.register draft
  return d

theorem calls_of_replaceFoo {d d' : Dispatcher Nat} (h : replaceFoo d = .ok d') :
    ReflTransGen Call d d' := by
  obtain ⟨⟨d₁, _⟩, h₁, h⟩ := exists_of_bind_eq_ok h
  obtain ⟨draft, -, h⟩ := exists_of_bind_eq_ok h
  obtain ⟨⟨d₂, _⟩, h₂, h⟩ := exists_of_bind_eq_ok h
  obtain ⟨draft', -, h⟩ := exists_of_bind_eq_ok h
  obtain ⟨⟨d₃, _⟩, h₃, h⟩ := exists_of_bind_eq_ok h
  cases h
  exact ((ReflTransGen.refl.tail (.remove h₁)).tail (.register h₂)).tail (.register h₃)

/-- The match that was kept runs the first command, while the line itself runs the second one. -/
theorem keptMatches_of_calls_replaceFoo :
    ∃ (d d' : Dispatcher Nat) (m : Match), fooRunsOne = .ok d ∧ replaceFoo d = .ok d' ∧
      ReflTransGen Call d d' ∧ d.parse .empty "foo" = .ok (some m) ∧ d.Settles m ∧
      (d'.select .empty "foo").map (Option.map Prod.fst) = .ok (some 2) ∧
      d'.selectMatch m = .ok (some (1, m.trail.toBindings)) ∧
      ∀ (σ : Type) (run : Nat → Bindings → Action σ Unit),
        d'.executeMatch run m = d.executeMatch run m := by
  have hrun : (fooRunsOne >>= fun d => (replaceFoo d).map fun d' =>
      ((d.parse .empty "foo").map (Option.map fun m =>
        (m.isComplete, (d.tree.node? m.node).bind Node.command?)),
        (d'.select .empty "foo").map (Option.map Prod.fst))) =
        .ok (.ok (some (true, some 1)), .ok (some 2)) := by
    cbv
  obtain ⟨d, h, hrun⟩ := exists_of_bind_eq_ok hrun
  obtain ⟨d', h', hresult⟩ := exists_of_map_eq_ok hrun
  obtain ⟨hparse, hselect⟩ := Prod.mk.inj hresult
  obtain ⟨found, hp, hfound⟩ := exists_of_map_eq_ok hparse
  obtain ⟨m, rfl, hm⟩ := Option.map_eq_some_iff.1 hfound
  obtain ⟨hcomplete, hcommand⟩ := Prod.mk.inj hm
  obtain ⟨node, hn, hc⟩ := Option.bind_eq_some_iff.1 hcommand
  have hcalls := calls_of_replaceFoo h'
  have hsettles : d.Settles m := .inr ⟨node, hn, .inr ⟨1, hc⟩⟩
  obtain ⟨-, -, hselected, hexecute⟩ := keptMatches_of_calls hcalls
  exact ⟨d, d', m, h, h', hcalls, hp, hsettles, hselect, (hselected m node 1 hcomplete hn hc).2,
    hexecute m hsettles⟩

end Dispatcher

end CommandGrammar
