import CommandGrammar.Proofs.Match.Path

/-!
# Which command a line runs

A line runs a command if its match uses it up and ends at a node with a command
(`Dispatcher.RunsAt`). That node is where the last literal or argument of the line leads: the node
itself, or the target of its redirect.

Main statement: `Dispatcher.exists_last_piece`, which finds that literal or argument among the visits
that explain the match, with nothing but flags behind it.
-/

namespace CommandGrammar

variable {κ : Type}

/-- A match uses up the line if nothing is left to read. -/
theorem Match.isComplete_iff {m : Match} : m.isComplete = true ↔ m.cursor.rest = [] := by
  simp [isComplete, Cursor.readable]

namespace Dispatcher

variable {d : Dispatcher κ} {context : Context} {line : String} {id : NodeId} {command : κ}
  {bindings : Bindings} {m : Match}

/-- Executing a line runs the command of a node, with bindings. -/
def RunsAt (d : Dispatcher κ) (context : Context) (line : String) (id : NodeId) (command : κ)
    (bindings : Bindings) : Prop :=
  ∃ m, d.parse context line = .ok (some m) ∧ m.node = id ∧
    d.selectMatch m = .ok (some (command, bindings))

/-- The command that a line runs, with its bindings, if it runs one. -/
def command? (d : Dispatcher κ) (context : Context) (line : String) : Option (κ × Bindings) :=
  match d.select context line with
  | .ok selected => selected
  | .error _ => none

/-- The command that a match runs, with its bindings, if it runs one. -/
def commandOf? (d : Dispatcher κ) (m : Match) : Option (κ × Bindings) :=
  match d.selectMatch m with
  | .ok selected => selected
  | .error _ => none

/-- A line runs the command of its match. -/
theorem command?_eq (d : Dispatcher κ) (context : Context) (line : String) :
    d.command? context line =
      match d.parse context line with
      | .ok (some m) => d.commandOf? m
      | _ => none := by
  unfold command? select commandOf?
  cases d.parse context line with
  | error failure => rfl
  | ok found => cases found <;> rfl

theorem select_eq_ok_some_iff :
    d.select context line = .ok (some (command, bindings)) ↔
      ∃ id, d.RunsAt context line id command bindings := by
  unfold select RunsAt
  cases hp : d.parse context line with
  | error failure => simp
  | ok found => cases found <;> simp

theorem command?_eq_some_iff :
    d.command? context line = some (command, bindings) ↔
      ∃ id, d.RunsAt context line id command bindings := by
  rw [← select_eq_ok_some_iff]
  unfold command?
  cases d.select context line <;> simp

/-- A command that a line runs is run, and nothing else is done. -/
theorem execute_of_command? {σ : Type} (h : d.command? context line = some (command, bindings))
    (run : κ → Bindings → Action σ Unit) : d.execute run context line = run command bindings := by
  obtain ⟨id, hr⟩ := command?_eq_some_iff.1 h
  rw [execute, select_eq_ok_some_iff.2 ⟨id, hr⟩, runSelected]

/-- A match runs a command if it uses up the line and ends at a node that has it. -/
theorem selectMatch_eq_ok_some_iff :
    d.selectMatch m = .ok (some (command, bindings)) ↔
      m.isComplete = true ∧ bindings = m.trail.toBindings ∧
        ∃ node, d.tree.node? m.node = some node ∧ node.command? = some command := by
  unfold selectMatch Match.isComplete
  cases hr : m.cursor.readable with
  | true => simp
  | false =>
    cases hn : d.tree.node? m.node with
    | none => simp [Tree.node, hn]
    | some node =>
      obtain ⟨symbol?, requirement, children⟩ := node
      rcases symbol? with _ | ⟨p, ending⟩ | c
      · simp [Tree.node, hn, Node.isFlag, Node.command?, Node.ending?]
      · simp only [Tree.node, hn, Node.isFlag, Option.any_some, Symbol.isFlag, Bool.false_eq_true,
          ↓reduceIte, Except.ok.injEq, Option.map_eq_some_iff, Prod.mk.injEq, Option.some.injEq,
          exists_eq_left', Bool.not_false, true_and]
        grind
      · simp [Tree.node, hn, Node.isFlag, Symbol.isFlag, Node.command?, Node.ending?,
          Symbol.ending?]

/-- The command of the node at a place. -/
def commandAt (d : Dispatcher κ) (id : NodeId) : Option κ := (d.tree.node? id).bind Node.command?

/-- A match that leaves text over is refused there. -/
theorem selectMatch_of_not_isComplete (h : m.isComplete = false) :
    d.selectMatch m = .error (.parse ⟨if m.trail.literals.isEmpty then .unknownCommand
      else .unknownArgument, m.cursor⟩) := by
  rw [selectMatch, if_pos (by simpa [Match.isComplete] using h)]

/-- One that uses up the line at a literal or an argument runs what is there. -/
theorem selectMatch_of_isTarget (h : m.isComplete = true) (ht : d.tree.isTarget m.node = true) :
    d.selectMatch m =
      .ok ((d.commandAt m.node).map fun command => (command, m.trail.toBindings)) := by
  obtain ⟨node, hn, he⟩ := (Option.any_eq_true _ _).1 ht
  have hreadable : m.cursor.readable = false := by simpa [Match.isComplete] using h
  obtain ⟨symbol?, requirement, children⟩ := node
  rcases symbol? with _ | ⟨p, ending⟩ | f
  · cases he
  · simp [selectMatch, hreadable, Tree.node, hn, commandAt, Node.isFlag, Symbol.isFlag]
  · cases he

/-- A match runs the command of its node, if it uses up the line. -/
theorem commandOf?_eq (d : Dispatcher κ) (m : Match) :
    d.commandOf? m =
      if m.isComplete then
        ((d.tree.node? m.node).bind Node.command?).map fun command => (command, m.trail.toBindings)
      else none := by
  ext ⟨command, bindings⟩
  have hiff : d.commandOf? m = some (command, bindings) ↔
      d.selectMatch m = .ok (some (command, bindings)) := by
    unfold commandOf?
    cases d.selectMatch m <;> simp
  rw [hiff, selectMatch_eq_ok_some_iff]
  cases m.isComplete with
  | false => simp
  | true =>
    cases d.tree.node? m.node with
    | none => simp
    | some node => cases hc : node.command? <;> simp [hc, eq_comm, and_comm]

/-- A line runs the command at which its match uses it up. -/
theorem runsAt_of_parse {node : Node κ} (hp : d.parse context line = .ok (some m))
    (hm : m.isComplete = true) (hn : d.tree.node? m.node = some node)
    (hc : node.command? = some command) :
    d.RunsAt context line m.node command m.trail.toBindings :=
  ⟨m, hp, rfl, selectMatch_eq_ok_some_iff.2 ⟨hm, rfl, node, hn, hc⟩⟩

section

variable {σ : Type} (run : κ → Bindings → Action σ Unit)

/-- Executing a match runs the command that it selects, and nothing else. -/
theorem executeMatch_of_selectMatch_some (h : d.selectMatch m = .ok (some (command, bindings))) :
    d.executeMatch run m = run command bindings := by
  rw [executeMatch, h, runSelected]

/-- A match that selects no command does nothing. -/
theorem executeMatch_of_selectMatch_none (h : d.selectMatch m = .ok none) :
    d.executeMatch run m = pure () := by
  rw [executeMatch, h, runSelected]

/-- A match that is refused fails, and does nothing. -/
theorem executeMatch_of_selectMatch_error {failure : Failure} (h : d.selectMatch m = .error failure) :
    d.executeMatch run m = throw failure := by
  rw [executeMatch, h, runSelected]

/-- **Executing a line is matching it and executing its match**, and a line without one fails. -/
theorem execute_eq_executeMatch (d : Dispatcher κ) (context : Context) (line : String) :
    d.execute run context line =
      match d.parse context line with
      | .error failure => throw failure
      | .ok none => throw (.parse ⟨.unknownCommand, .atStart line⟩)
      | .ok (some m) => d.executeMatch run m := by
  unfold execute select executeMatch
  cases d.parse context line with
  | error failure => rfl
  | ok found => cases found <;> rfl

end

theorem RunsAt.exists_node (h : d.RunsAt context line id command bindings) :
    ∃ node, d.tree.node? id = some node ∧ node.command? = some command := by
  obtain ⟨m, -, rfl, hm⟩ := h
  exact (selectMatch_eq_ok_some_iff.1 hm).2.2

end Dispatcher

/-- A node with a command is no flag. -/
theorem Node.isFlag_of_command? {node : Node κ} {command : κ} (h : node.command? = some command) :
    node.isFlag = false := by
  obtain ⟨symbol?, requirement, children⟩ := node
  rcases symbol? with _ | _ | _
  · rfl
  · rfl
  · cases h

namespace Tree

variable {tree : Tree κ} {context : Context} {v : Visit}

/-- A visit is to a flag exactly if its node is one. -/
theorem Visits.isFlag_eq {node : Node κ} (h : tree.Visits context v)
    (hn : tree.node? v.id = some node) : node.isFlag = v.isFlag := by
  have hk := h.kind
  rw [kind?, symbol?_of_node? hn] at hk
  rw [Node.isFlag, Visit.isFlag]
  cases hs : node.symbol? with
  | none =>
    rw [hs] at hk
    cases hk
  | some symbol =>
    rw [hs] at hk
    rw [← Option.some.inj hk]
    rcases symbol with ⟨_ | _, _⟩ | _ <;> rfl

theorem Path.visits_of_mem {id : NodeId} {c e : Cursor} {visits : List Visit}
    (h : tree.Path context id c visits e) (hv : v ∈ visits) : tree.Visits context v := by
  induction h with
  | nil => cases hv
  | cons _ hvisit _ _ ih =>
    rcases List.mem_cons.1 hv with rfl | hv
    · exact hvisit
    · exact ih hv

theorem Visits.canUse_eq (h : tree.Visits context v) : tree.canUse v.id context = .ok true := by
  obtain ⟨node, hn, hu⟩ := h.canUse
  rw [Tree.canUse, node_eq_ok.2 hn, ← hu]
  rfl

/-- Flags are not redirected. -/
theorem Visits.onward_of_isFlag (h : tree.Visits context v) (hf : v.isFlag = true) :
    tree.onward v.id = v.id := by
  obtain ⟨node, hn, -⟩ := h.canUse
  refine onward_of_redirect?_none ?_
  rw [redirect?_of_node? hn]
  cases hr : node.redirect? with
  | none => rfl
  | some target =>
    rw [← h.isFlag_eq hn, isFlag_of_redirect? hr] at hf
    cases hf

end Tree

namespace Dispatcher

variable {d : Dispatcher κ} {context : Context} {line : String} {id : NodeId} {command : κ}
  {bindings : Bindings}

/-- A line is used up, and one of the visits that explain its match is to its last literal or
argument. -/
structure LastPiece (d : Dispatcher κ) (context : Context) (line : String) (m : Match)
    (front : List Visit) (v : Visit) (back : List Visit) : Prop where
  /-- The line has a match. -/
  parse : d.parse context line = .ok (some m)
  /-- The match uses it up. -/
  complete : m.isComplete = true
  /-- The visits explain it. -/
  explains : d.tree.Explains context (.atStart line) (front ++ v :: back) m
  /-- The visit is to a literal or an argument. -/
  piece : v.isFlag = false
  /-- Only flags come behind it. -/
  flags : ∀ w ∈ back, w.isFlag = true

section LastPiece

variable {m : Match} {front back : List Visit} {v : Visit}

theorem LastPiece.visits (h : d.LastPiece context line m front v back) :
    d.tree.Visits context v :=
  h.explains.path.visits_of_mem (List.mem_append_right _ List.mem_cons_self)

/-- A line that is used up ends where its last literal or argument leads. -/
theorem LastPiece.node_eq (h : d.LastPiece context line m front v back) :
    m.node = d.tree.onward v.id := by
  have hback : back.filter (fun w => !w.isFlag) = [] := by
    rw [List.filter_eq_nil_iff]
    intro w hw
    simp [h.flags w hw]
  have hnode := h.explains.node
  simp only [Tree.endNode?, h.complete, ↓reduceIte, List.filter_append, hback, List.filter_cons,
    h.piece, Bool.not_false, List.getLast?_append, List.getLast?_singleton, Option.some_or,
    Option.map_some, Option.some.injEq] at hnode
  exact hnode.symm

end LastPiece

/-- A line that is used up has a last literal or argument, unless nothing but flags was read. -/
theorem exists_lastPiece_of_visit {m : Match} {visits : List Visit}
    (hp : d.parse context line = .ok (some m)) (hm : m.isComplete = true)
    (hx : d.tree.Explains context (.atStart line) visits m)
    (hpiece : ∃ v ∈ visits, v.isFlag = false) :
    ∃ front v back, d.LastPiece context line m front v back := by
  obtain ⟨w, hw, hwpiece⟩ := hpiece
  have hne : visits.filter (fun v => !v.isFlag) ≠ [] :=
    List.ne_nil_of_mem (List.mem_filter.2 ⟨hw, by simp [hwpiece]⟩)
  obtain ⟨init, v, hinit⟩ := (List.eq_nil_or_concat' _).resolve_left hne
  obtain ⟨front, tail, rfl, -, htail⟩ := List.filter_eq_append_iff.1 hinit
  obtain ⟨between, back, rfl, -, hv, hback⟩ := List.filter_eq_cons_iff.1 htail
  refine ⟨front ++ between, v, back, ⟨hp, hm, ?_, by simpa using hv, ?_⟩⟩
  · rw [List.append_assoc]
    exact hx
  · intro w hw
    simpa using List.filter_eq_nil_iff.1 hback w hw

/-- **A line runs the command to which its last literal or argument leads**, with what was read. -/
theorem exists_last_piece (h : d.Reachable) (hr : d.RunsAt context line id command bindings) :
    ∃ m front v back, d.LastPiece context line m front v back ∧ d.tree.onward v.id = id ∧
      bindings = m.trail.toBindings := by
  obtain ⟨m, hp, rfl, hm⟩ := hr
  obtain ⟨hcomplete, hb, node, hn, hcommand⟩ := selectMatch_eq_ok_some_iff.1 hm
  obtain ⟨visits, hx⟩ := Tree.exists_explains h.tree.wellFormed hp
  by_cases hpiece : ∃ v ∈ visits, v.isFlag = false
  · obtain ⟨front, v, back, hlast⟩ := exists_lastPiece_of_visit hp hcomplete hx hpiece
    exact ⟨m, front, v, back, hlast, hlast.node_eq.symm, hb⟩
  · -- a line of flags only ends at a flag, and a flag has no command
    have hflags : ∀ v ∈ visits, v.isFlag = true := by simpa using hpiece
    have hnone : visits.filter (fun v => !v.isFlag) = [] := by
      rw [List.filter_eq_nil_iff]
      intro v hv
      simp [hflags v hv]
    have hnode := hx.node
    simp only [Tree.endNode?, hcomplete, ↓reduceIte, hnone, List.getLast?_nil,
      Option.none_or] at hnode
    obtain ⟨v, hlast, honward⟩ := Option.map_eq_some_iff.1 hnode
    have hmem : v ∈ visits := List.mem_of_getLast? hlast
    have hvisit := hx.path.visits_of_mem hmem
    rw [hvisit.onward_of_isFlag (hflags v hmem)] at honward
    rw [← honward] at hn
    have hfalse := hvisit.isFlag_eq hn
    rw [Node.isFlag_of_command? hcommand, hflags v hmem] at hfalse
    cases hfalse

end Dispatcher

end CommandGrammar
