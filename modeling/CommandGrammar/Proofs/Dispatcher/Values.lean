import CommandGrammar.Proofs.Dispatcher.Run
import CommandGrammar.Proofs.Dispatcher.Alias
import CommandGrammar.Proofs.Match.Written

/-!
# Lines of a name and values

Many commands are a literal directly below the root, or another name of it, with nothing but
arguments below it, one below the other. A line of such a command is the name, and behind separators
the values as they are written.

Main statements: such a line runs the command at the last argument, with the values bound to the
arguments (`Dispatcher.exists_select_of_argument`, `Dispatcher.exists_select_of_two_arguments`), and
a line of the name alone, or with a flag behind it, runs the command at the literal
(`Dispatcher.exists_select_of_name`, `Dispatcher.exists_select_of_flag`).
-/

namespace CommandGrammar

variable {κ : Type}

namespace Tree

variable {tree : Tree κ} {context : Context} {id child : NodeId} {a : Argument} {flag : Char}
  {value : Value} {text tail : List Char} {c : Cursor}

/-- The only child of a node is an argument that may always be used and has no redirect. -/
structure OnlyArgument (tree : Tree κ) (id child : NodeId) (a : Argument) : Prop where
  /-- The node has one child, which is an argument. -/
  owner : ∃ node, tree.node? id = some node ∧ node.isChild = true ∧
    ∀ c, node.relevantChildren c = [child]
  /-- It is this one. -/
  argument : ∃ node ending, tree.node? child = some node ∧
    node.symbol? = some (.piece (.argument a) ending) ∧ node.requirement = none ∧
    node.redirect? = none

/-- The only child of a node is a flag that may always be used. -/
structure OnlyFlag (tree : Tree κ) (id child : NodeId) (flag : Char) : Prop where
  /-- The node has one child, which is a flag. -/
  owner : ∃ node, tree.node? id = some node ∧ ∀ c, node.relevantChildren c = [child]
  /-- It is this one. -/
  flag : ∃ node, tree.node? child = some node ∧ node.symbol? = some (.flag flag) ∧
    node.requirement = none

/-- Behind a part nothing follows, or a separator and what is left. -/
theorem exists_nextPart?_of_rest {after : Cursor} (hrest : after.rest = tail)
    (htail : ∀ next ∈ tail.head?, next = separator) :
    ∃ next, after.nextPart? = some next ∧ next.rest = tail.tail := by
  cases tail with
  | nil => exact ⟨after, by simp [Cursor.nextPart?, Cursor.peek, hrest], hrest⟩
  | cons first tail =>
    obtain rfl := htail first rfl
    exact ⟨after.advance 1, by simp [Cursor.nextPart?, Cursor.peek, hrest],
      by simp [Cursor.advance, hrest]⟩

/-- Where an argument is the only way on, its value is read and recorded. -/
theorem OnlyArgument.exists_matchFrom (h : tree.OnlyArgument id child a)
    (hread : a.type.ReadsAs context text value tail)
    (htail : ∀ next ∈ tail.head?, next = separator) (hc : c.rest = text ++ tail)
    (hne : text ++ tail ≠ []) (anchor : Option NodeId) (t : Trail) :
    ∃ next span here, next.rest = tail.tail ∧ tree.matchFrom context id anchor c t =
      (tree.matchFrom context child (some child) next (t.addArgument a span value)).map
        (·.or (some here)) := by
  obtain ⟨owner, ho, hchild, hrelevant⟩ := h.owner
  obtain ⟨node, ending, hn, hs, hu, hr⟩ := h.argument
  obtain ⟨after, hvalue, hafter⟩ := hread c hc
  obtain ⟨next, hnext, hrest⟩ := exists_nextPart?_of_rest hafter htail
  have hstep : tree.step context child c t =
      .ok (some ⟨node, next, t.addArgument a (c.spanTo after) value⟩) := by
    simp only [step, node_eq_ok.2 hn, hs, Node.canUse, hu, Option.all_none, ↓reduceIte, Symbol.read,
      hvalue, hnext]
  refine ⟨next, c.spanTo after, ⟨id, c, t⟩, hrest, ?_⟩
  rw [matchFrom_of_step ho (hrelevant c) (hc ▸ hne) hstep hr (by rw [Node.isChild, hs]; rfl)
    (by rw [Node.isFlag, hs]; rfl), if_pos hchild]

/-- At the end of a line the match ends at the argument. -/
theorem OnlyArgument.exists_match (h : tree.OnlyArgument id child a)
    (hread : a.type.ReadsAs context text value []) (hc : c.rest = text) (hne : text ≠ [])
    (anchor : Option NodeId) (t : Trail) :
    ∃ e span, e.rest = [] ∧ tree.matchFrom context id anchor c t =
      .ok (some ⟨child, e, t.addArgument a span value⟩) := by
  obtain ⟨next, span, here, hrest, hmatch⟩ :=
    h.exists_matchFrom hread (by simp) (by simpa using hc) (by simpa using hne) anchor t
  obtain ⟨node, ending, hn, hs, -, -⟩ := h.argument
  refine ⟨next, span, hrest, ?_⟩
  rw [hmatch, matchFrom_of_end hn hrest, if_pos (by rw [Node.isChild, hs]; rfl)]
  rfl

/-- A flag at the end of a line is recorded, and the match ends at the anchor. -/
theorem OnlyFlag.exists_match (h : tree.OnlyFlag id child flag) (hc : c.rest = ['-', flag])
    (anchor : NodeId) (t : Trail) :
    ∃ e span, e.rest = [] ∧ tree.matchFrom context id (some anchor) c t =
      .ok (some ⟨anchor, e, t.addFlag span flag⟩) := by
  obtain ⟨owner, ho, hrelevant⟩ := h.owner
  obtain ⟨node, hn, hs, hu⟩ := h.flag
  have hend : (c.advance 2).rest = [] := by simp [Cursor.advance, hc]
  have hread : c.readFlag? flag = some (c.advance 2) := by simp [Cursor.readFlag?, hc]
  have hnext : (c.advance 2).nextPart? = some (c.advance 2) := by
    simp [Cursor.nextPart?, Cursor.peek, hend]
  have hstep : tree.step context child c t =
      .ok (some ⟨node, c.advance 2, t.addFlag (c.spanTo (c.advance 2)) flag⟩) := by
    simp only [step, node_eq_ok.2 hn, hs, Node.canUse, hu, Option.all_none, ↓reduceIte, Symbol.read,
      hread, Option.map_some, hnext]
  have hr : node.redirect? = none := by rw [Node.redirect?, Node.ending?, hs]; rfl
  have hflag : node.isFlag = true := by rw [Node.isFlag, hs]; rfl
  refine ⟨c.advance 2, c.spanTo (c.advance 2), hend, ?_⟩
  rw [matchFrom, node_eq_ok.2 ho]
  simp only [hc, ne_eq, List.cons_ne_nil, not_false_eq_true, ↓reduceDIte, hrelevant]
  rw [matchAny_cons_of_resume hstep hr, resume]
  simp [hflag, Cursor.readable, hend, matchAny_nil, Match.better]

end Tree

namespace Dispatcher

variable {d : Dispatcher κ} {context : Context} {name : String} {id start first second : NodeId}
  {a b : Argument} {flag : Char} {value value' : Value} {text text' : String} {command : κ}

/-- A match that uses up its line selects the command of its node. -/
theorem select_of_parse {line : String} {e : Cursor} {t : Trail} (he : e.rest = [])
    (hparse : d.parse context line = .ok (some ⟨id, e, t⟩)) (hcommand : d.commandAt id = some command) :
    d.select context line = .ok (some (command, t.toBindings)) := by
  obtain ⟨node, hn, hc⟩ := Option.bind_eq_some_iff.1 hcommand
  rw [select, hparse]
  exact selectMatch_eq_ok_some_iff.2 ⟨Match.isComplete_iff.2 he, rfl, node, hn, hc⟩

/-- A literal of a name below the root may be used, and what stands behind the name is read on at a
node: at that of the literal, or where its redirect leads. -/
structure LeadsTo (d : Dispatcher κ) (context : Context) (name : String) (start : NodeId) :
    Prop where
  /-- The name is a token of a line. -/
  isToken : IsToken name
  /-- The literal may be used, and leads to the node. -/
  literal : ∃ id, d.tree.TopLiteral name id ∧ d.tree.canUse id context = .ok true ∧
    d.tree.onward id = start

section Named

variable (h : d.Reachable) (hname : d.LeadsTo context name start)
include h hname

/-- What stands behind a name is matched where the name leads, and nothing is recorded before. -/
theorem exists_parse_eq_matchFrom {s : String} {next : Cursor} (hs : EndsToken s)
    (hnext : (Cursor.atStart s).nextPart? = some next) :
    ∃ (c : Cursor) (t : Trail), c.rest = next.rest ∧ t.flags = [] ∧
      d.parse context (name ++ s) = d.tree.matchFrom context start (some start) c t := by
  obtain ⟨id, hid, hu, rfl⟩ := hname.literal
  exact ⟨next.behind name.toList, (Trail.start context (.atStart s)).behind name.toList (.point 0),
    rfl, rfl, Tree.matchAt_of_topLiteral h.tree.wellFormed hid hu hname.isToken hs hnext⟩

/-- The name alone runs the command of where it leads. -/
theorem exists_select_of_name (hcommand : d.commandAt start = some command) :
    ∃ bindings, d.select context name = .ok (some (command, bindings)) ∧ bindings.flags = [] := by
  have hend : (Cursor.atStart "").nextPart? = some (.atStart "") := rfl
  obtain ⟨c, t, hc, hflags, hparse⟩ := exists_parse_eq_matchFrom h hname endsToken_empty hend
  obtain ⟨node, hn, hnode⟩ := Option.bind_eq_some_iff.1 hcommand
  have hchild : node.isChild = true := by
    rw [Node.command?, Node.ending?] at hnode
    rw [Node.isChild]
    cases hs : node.symbol? with
    | none => simp [hs] at hnode
    | some symbol => rfl
  rw [String.append_empty, Tree.matchFrom_of_end hn hc, if_pos hchild] at hparse
  exact ⟨_, select_of_parse hc hparse hcommand, hflags⟩

/-- A flag behind the name is recorded, and the command is the same. -/
theorem exists_select_of_flag (honly : d.tree.OnlyFlag start first flag)
    (hcommand : d.commandAt start = some command) :
    ∃ bindings, d.select context (name ++ " " ++ String.ofList ['-', flag]) =
      .ok (some (command, bindings)) ∧ bindings.hasFlag flag = true := by
  obtain ⟨c, t, hc, -, hparse⟩ := exists_parse_eq_matchFrom h hname
    (endsToken_separator (String.ofList ['-', flag])) (nextPart?_separator _)
  rw [String.toList_ofList] at hc
  obtain ⟨e, span, he, hmatch⟩ := honly.exists_match hc start t
  rw [hmatch, ← String.append_assoc] at hparse
  refine ⟨_, select_of_parse he hparse hcommand, ?_⟩
  simp [Bindings.hasFlag, Trail.addFlag]

/-- A value behind the name is bound to the argument, whose command is run. -/
theorem exists_select_of_argument (honly : d.tree.OnlyArgument start first a)
    (hread : a.type.ReadsAs context text.toList value []) (hne : text ≠ "")
    (hcommand : d.commandAt first = some command) :
    ∃ bindings, d.select context (name ++ " " ++ text) = .ok (some (command, bindings)) ∧
      bindings.find? a = some value := by
  obtain ⟨c, t, hc, -, hparse⟩ :=
    exists_parse_eq_matchFrom h hname (endsToken_separator text) (nextPart?_separator _)
  obtain ⟨e, span, he, hmatch⟩ := honly.exists_match hread hc
    (fun hnil => hne (String.toList_eq_nil_iff.1 hnil)) (some start) t
  rw [hmatch, ← String.append_assoc] at hparse
  refine ⟨_, select_of_parse he hparse hcommand, ?_⟩
  rw [Trail.find?_addArgument, if_pos rfl]

/-- Two values behind the name are bound to the two arguments. -/
theorem exists_select_of_two_arguments
    (hfirst : d.tree.OnlyArgument start first a)
    (hsecond : d.tree.OnlyArgument first second b) (hkey : b.key ≠ a.key)
    (hread : a.type.ReadsAs context text.toList value (separator :: text'.toList))
    (hread' : b.type.ReadsAs context text'.toList value' []) (hne : text' ≠ "")
    (hcommand : d.commandAt second = some command) :
    ∃ bindings, d.select context (name ++ " " ++ text ++ " " ++ text') =
      .ok (some (command, bindings)) ∧ bindings.find? a = some value ∧
        bindings.find? b = some value' := by
  obtain ⟨c, t, hc, -, hparse⟩ := exists_parse_eq_matchFrom h hname
    (endsToken_separator (text ++ (" " ++ text'))) (nextPart?_separator _)
  have hrest : c.rest = text.toList ++ separator :: text'.toList := by
    rw [hc, String.toList_append, String.toList_append]
    rfl
  obtain ⟨next, span, here, hnext, hmatch⟩ := hfirst.exists_matchFrom hread
    (fun _ hm => (Option.some.inj hm).symm) hrest (by simp) (some start) t
  obtain ⟨e, span', he, hlast⟩ := hsecond.exists_match hread' hnext
    (fun hnil => hne (String.toList_eq_nil_iff.1 hnil)) (some first) (t.addArgument a span value)
  rw [hmatch, hlast] at hparse
  simp only [← String.append_assoc] at hparse
  refine ⟨_, select_of_parse he hparse hcommand, ?_, ?_⟩
  · rw [Trail.find?_addArgument, if_neg hkey, Trail.find?_addArgument, if_pos rfl]
  · rw [Trail.find?_addArgument, if_pos rfl]

end Named

end Dispatcher

end CommandGrammar
