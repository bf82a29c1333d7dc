import CommandGrammar.Proofs.Dispatcher.Values
import CommandGrammar.Store.Session

/-!
# The grammar of the store

The nodes of the store's grammar, written out in the order of their insertion (`outlines`), and what
the lines of its commands select.

Main statements: the grammar comes out of registrations (`reachable_dispatcher`), its nodes are the
ones written out (`outline_of_grammar`), and the lines of `set`, `get`, `del`, `rm`, `list`, `echo`
and `say` select their verbs with the values that stand in them, in every context
(`exists_select_set`, `Takes.exists_select_key`, `exists_select_list`, `exists_select_list_verbose`,
`exists_select_echo`, `exists_select_say`). `rm` leads to the node of `del`, so what is said of a
name that takes a key holds of both.
-/

namespace CommandGrammar

/-! ### Outlines -/

/-- What a node stands for, when it may be used, and its children by their kinds. -/
structure Node.Outline (κ : Type) where
  /-- What the node stands for. -/
  symbol? : Option (Symbol κ)
  /-- When the node may be used. -/
  requirement : Option Requirement := none
  /-- The literals by name. -/
  literals : List (String × NodeId) := []
  /-- The arguments. -/
  arguments : List NodeId := []
  /-- The flags. -/
  flags : List NodeId := []

/-- The outline of a node. -/
def Node.outline {κ : Type} (node : Node κ) : Node.Outline κ where
  symbol? := node.symbol?
  requirement := node.requirement
  literals := node.children.literals.entries
  arguments := node.children.arguments
  flags := node.children.flags

namespace Store

variable {context : Context} {name k t : String} {id child : NodeId} {a : Argument} {flag : Char}
  {o : Node.Outline Verb}

/-- A literal, with the command or the redirect that it may have. -/
def literalSymbol (name : String) (command : Option Verb := none)
    (redirect : Option NodeId := none) : Symbol Verb :=
  .piece (.literal name) ⟨command, redirect⟩

/-- An argument, with the command that it may have. -/
def argumentSymbol (a : Argument) (command : Option Verb := none) : Symbol Verb :=
  .piece (.argument a) ⟨command, none⟩

/-- The literals below the root. -/
def topLiterals : List (String × NodeId) :=
  [("set", 1), ("get", 4), ("del", 6), ("rm", 8), ("list", 9), ("echo", 11), ("toggle", 13),
    ("say", 15), ("admin", 17)]

/-- The outlines of the nodes of the grammar, in the order of their insertion. -/
def outlines : List (Node.Outline Verb) :=
  [{ symbol? := none, literals := topLiterals },
    { symbol? := literalSymbol "set", arguments := [2] },
    { symbol? := argumentSymbol key, arguments := [3] },
    { symbol? := argumentSymbol value (some .set) },
    { symbol? := literalSymbol "get", arguments := [5] },
    { symbol? := argumentSymbol key (some .get) },
    { symbol? := literalSymbol "del", arguments := [7] },
    { symbol? := argumentSymbol key (some .delete) },
    { symbol? := literalSymbol "rm" none (some 6) },
    { symbol? := literalSymbol "list" (some .list), flags := [10] },
    { symbol? := some (.flag verbose) },
    { symbol? := literalSymbol "echo", arguments := [12] },
    { symbol? := argumentSymbol text (some .echo) },
    { symbol? := literalSymbol "toggle", arguments := [14] },
    { symbol? := argumentSymbol enabledArgument (some .toggle) },
    { symbol? := literalSymbol "say", arguments := [16] },
    { symbol? := argumentSymbol message (some .say) },
    { symbol? := literalSymbol "admin" (some .status), requirement := some isAdmin,
      literals := [("reset", 18)] },
    { symbol? := literalSymbol "reset" (some .reset) }]

set_option maxRecDepth 10000 in
/-- **The nodes of the grammar are the ones written out.** -/
theorem outline_of_grammar :
    grammar.map (fun d => d.tree.nodes.toList.map Node.outline) = .ok outlines := by
  cbv

/-! ### The grammar comes out of registrations -/

theorem drafted_literalWith {child draft : CommandDraft Verb} (hchild : child.Drafted)
    (h : literalWith name child = .ok draft) : draft.Drafted :=
  (CommandDraft.Drafted.literal name).child (.command hchild) h

theorem drafted_of_argument {verb : Verb} {draft : CommandDraft Verb}
    (h : ((argument a).executes verb >>= literalWith name) = .ok draft) : draft.Drafted := by
  obtain ⟨child, hchild, h⟩ := exists_of_bind_eq_ok h
  exact drafted_literalWith ((CommandDraft.Drafted.argument a).executes hchild) h

theorem drafted_setCommand {draft : CommandDraft Verb} (h : setCommand = .ok draft) :
    draft.Drafted := by
  obtain ⟨last, hlast, h⟩ := exists_of_bind_eq_ok h
  obtain ⟨first, hfirst, h⟩ := exists_of_bind_eq_ok h
  have hlast := (CommandDraft.Drafted.argument value).executes hlast
  exact drafted_literalWith ((CommandDraft.Drafted.argument key).child (.command hlast) hfirst) h

theorem drafted_listCommand {draft : CommandDraft Verb} (h : listCommand = .ok draft) :
    draft.Drafted := by
  obtain ⟨bare, hbare, h⟩ := exists_of_bind_eq_ok h
  exact ((CommandDraft.Drafted.literal "list").executes hbare).child (.flag (.flag verbose)) h

theorem drafted_adminCommand {draft : CommandDraft Verb} (h : adminCommand = .ok draft) :
    draft.Drafted := by
  obtain ⟨bare, hbare, h⟩ := exists_of_bind_eq_ok h
  obtain ⟨reset, hreset, h⟩ := exists_of_bind_eq_ok h
  have hbare := ((CommandDraft.Drafted.literal "admin").requires isAdmin).executes hbare
  have hreset := (CommandDraft.Drafted.literal "reset").executes hreset
  exact hbare.child (.command hreset) h

theorem reachable_of_grammar {d : Dispatcher Verb} (h : grammar = .ok d) : d.Reachable := by
  obtain ⟨set, hset, h⟩ := exists_of_bind_eq_ok h
  obtain ⟨⟨d₁, _⟩, h₁, h⟩ := exists_of_bind_eq_ok h
  obtain ⟨get, hget, h⟩ := exists_of_bind_eq_ok h
  obtain ⟨⟨d₂, _⟩, h₂, h⟩ := exists_of_bind_eq_ok h
  obtain ⟨del, hdel, h⟩ := exists_of_bind_eq_ok h
  obtain ⟨⟨d₃, target⟩, h₃, h⟩ := exists_of_bind_eq_ok h
  obtain ⟨rm, hrm, h⟩ := exists_of_bind_eq_ok h
  obtain ⟨⟨d₄, _⟩, h₄, h⟩ := exists_of_bind_eq_ok h
  obtain ⟨list, hlist, h⟩ := exists_of_bind_eq_ok h
  obtain ⟨⟨d₅, _⟩, h₅, h⟩ := exists_of_bind_eq_ok h
  obtain ⟨echo, hecho, h⟩ := exists_of_bind_eq_ok h
  obtain ⟨⟨d₆, _⟩, h₆, h⟩ := exists_of_bind_eq_ok h
  obtain ⟨toggle, htoggle, h⟩ := exists_of_bind_eq_ok h
  obtain ⟨⟨d₇, _⟩, h₇, h⟩ := exists_of_bind_eq_ok h
  obtain ⟨say, hsay, h⟩ := exists_of_bind_eq_ok h
  obtain ⟨⟨d₈, _⟩, h₈, h⟩ := exists_of_bind_eq_ok h
  obtain ⟨admin, hadmin, h⟩ := exists_of_bind_eq_ok h
  obtain ⟨⟨d₉, _⟩, h₉, h⟩ := exists_of_bind_eq_ok h
  cases h
  have hreach := (Dispatcher.Reachable.start {}).register (drafted_setCommand hset) h₁
  have hreach := hreach.register (drafted_of_argument hget) h₂
  have hreach := hreach.register (drafted_of_argument hdel) h₃
  have hreach := hreach.register ((CommandDraft.Drafted.literal "rm").redirects hrm) h₄
  have hreach := hreach.register (drafted_listCommand hlist) h₅
  have hreach := hreach.register (drafted_of_argument hecho) h₆
  have hreach := hreach.register (drafted_of_argument htoggle) h₇
  have hreach := hreach.register (drafted_of_argument hsay) h₈
  exact hreach.register (drafted_adminCommand hadmin) h₉

theorem exists_grammar (style : UsageStyle) :
    ∃ d, grammar = .ok d ∧ dispatcher style = { d with style } := by
  unfold dispatcher
  split
  · rename_i d h
    exact ⟨d, h, rfl⟩
  · rename_i h
    have hok := grammar_isOk
    rw [h] at hok
    cases hok

/-- **The store's dispatcher comes out of registrations.** -/
theorem reachable_dispatcher (style : UsageStyle) : (dispatcher style).Reachable := by
  obtain ⟨d, h, hd⟩ := exists_grammar style
  rw [hd]
  exact (reachable_of_grammar h).restyle style

/-! ### What can be read off the outlines -/

theorem exists_node (style : UsageStyle) (ho : outlines[id]? = some o) :
    ∃ node, (dispatcher style).tree.node? id = some node ∧ node.outline = o := by
  obtain ⟨d, h, hd⟩ := exists_grammar style
  have hall := outline_of_grammar
  rw [h] at hall
  rw [← Except.ok.inj hall, List.getElem?_map, Array.getElem?_toList] at ho
  obtain ⟨node, hn, rfl⟩ := Option.map_eq_some_iff.1 ho
  rw [hd]
  exact ⟨node, hn, rfl⟩

theorem relevantChildren_of_outline {node : Node Verb} (hl : node.outline.literals = [])
    (c : Cursor) : node.relevantChildren c = node.outline.arguments ++ node.outline.flags := by
  have hnone : node.children.literals.find? (String.ofList c.token) = none := by
    have hl : node.children.literals.entries = [] := hl
    rw [Table.find?, hl]
    rfl
  rw [Node.relevantChildren, hnone]
  rfl

section Read

variable (style : UsageStyle) {command : Option Verb} {redirect : Option NodeId} {start : NodeId}
  {symbol : Symbol Verb} {arguments flags : List NodeId}

/-- The names below the root are those written out. -/
theorem topLiteral (hid : Table.valueIn name topLiterals = some id) :
    (dispatcher style).tree.TopLiteral name id := by
  have htop : outlines[Tree.root]? = some { symbol? := none, literals := topLiterals } := rfl
  obtain ⟨root, hroot, hliterals⟩ := exists_node style htop
  have hliterals : root.children.literals.entries = topLiterals :=
    congrArg Node.Outline.literals hliterals
  have hw := (reachable_dispatcher style).tree.wellFormed
  exact (Tree.topLiteral_iff hw).2 ⟨root, hroot, by rw [Table.find?, hliterals, hid]⟩

/-- A literal below the root without a requirement can be used in every context. -/
theorem leadsTo (context : Context) (hid : Table.valueIn name topLiterals = some id)
    (ho : outlines[id]? =
      some { symbol? := literalSymbol name command redirect, arguments, flags })
    (hstart : redirect.getD id = start) (ht : IsToken name) :
    (dispatcher style).LeadsTo context name start := by
  obtain ⟨node, hn, hnode⟩ := exists_node style ho
  have hs : node.symbol? = some (literalSymbol name command redirect) :=
    congrArg Node.Outline.symbol? hnode
  have hu : node.requirement = none := congrArg Node.Outline.requirement hnode
  refine ⟨ht, id, topLiteral style hid, Tree.canUse_eq_ok.2 ⟨node, hn, ?_⟩, ?_⟩
  · rw [Node.canUse, hu]
    rfl
  · rw [Tree.onward, Tree.redirect?_of_node? hn, Node.redirect?, Node.ending?, hs]
    exact hstart

/-- A node has one argument and nothing else below it. -/
theorem onlyArgument (ho : outlines[id]? = some { symbol? := symbol, arguments := [child] })
    (ho' : outlines[child]? = some { symbol? := argumentSymbol a command, arguments, flags }) :
    (dispatcher style).tree.OnlyArgument id child a := by
  obtain ⟨owner, hn, howner⟩ := exists_node style ho
  obtain ⟨node, hn', hnode⟩ := exists_node style ho'
  have hchild : owner.symbol? = some symbol := congrArg Node.Outline.symbol? howner
  have hs : node.symbol? = some (argumentSymbol a command) := congrArg Node.Outline.symbol? hnode
  have hu : node.requirement = none := congrArg Node.Outline.requirement hnode
  refine ⟨⟨owner, hn, by rw [Node.isChild, hchild]; rfl, fun c => ?_⟩, node, _, hn', hs, hu, ?_⟩
  · rw [relevantChildren_of_outline (by rw [howner]), howner]
    rfl
  · rw [Node.redirect?, Node.ending?, hs]
    rfl

/-- A node has one flag and nothing else below it. -/
theorem onlyFlag (ho : outlines[id]? = some { symbol? := symbol, flags := [child] })
    (ho' : outlines[child]? = some { symbol? := some (.flag flag) }) :
    (dispatcher style).tree.OnlyFlag id child flag := by
  obtain ⟨owner, hn, howner⟩ := exists_node style ho
  obtain ⟨node, hn', hnode⟩ := exists_node style ho'
  refine ⟨⟨owner, hn, fun c => ?_⟩, node, hn', congrArg Node.Outline.symbol? hnode,
    congrArg Node.Outline.requirement hnode⟩
  rw [relevantChildren_of_outline (by rw [howner]), howner]
  rfl

theorem commandAt_of_outline {p : Piece}
    (ho : outlines[id]? =
      some { symbol? := some (.piece p ⟨command, redirect⟩), arguments, flags }) :
    (dispatcher style).commandAt id = command := by
  obtain ⟨node, hn, hnode⟩ := exists_node style ho
  have hs : node.symbol? = some (.piece p ⟨command, redirect⟩) := congrArg Node.Outline.symbol? hnode
  rw [Dispatcher.commandAt, hn, Option.bind_some, Node.command?, Node.ending?, hs]
  rfl

end Read

/-! ### What lines select -/

/-- A key that a line can hold: a word that is not empty. -/
def IsKey (k : String) : Prop := k ≠ "" ∧ ∀ c ∈ k.toList, isBlank c = false

instance (k : String) : Decidable (IsKey k) :=
  @instDecidableAnd _ _ _ (List.decidableBAll _ k.toList)

theorem IsKey.readsAs (hk : IsKey k) {tail : List Char} (htail : Stops inWord tail) :
    key.type.ReadsAs context k.toList (.text k) tail := by
  have hword : ∀ c ∈ k.toList, inWord c = true := by
    intro c hc
    rw [inWord, hk.2 c hc]
    rfl
  have hread : key.type.ReadsAs context k.toList (.text (String.ofList k.toList)) tail :=
    ArgumentType.readsAs_word hword htail
  rwa [String.ofList_toList] at hread

theorem readsAs_value {n : Int} (hleast : 0 ≤ n) (hgreatest : n ≤ maxValue) :
    value.type.ReadsAs context (toString n).toList (.number (.integer .int n)) [] := by
  refine ArgumentType.readsAs_integer (decide_eq_true ⟨?_, ?_⟩) ?_ (stops_nil _)
  · exact Int.le_trans (by decide) hleast
  · exact Int.le_trans hgreatest (by decide)
  · rintro bounds ⟨⟩
    exact ⟨hleast, hgreatest⟩

/-- A name takes one argument and nothing else, and its lines run a verb. -/
def Takes (style : UsageStyle) (name : String) (a : Argument) (verb : Verb) : Prop :=
  ∃ start last, (∀ context, (dispatcher style).LeadsTo context name start) ∧
    (dispatcher style).tree.OnlyArgument start last a ∧
    (dispatcher style).commandAt last = some verb

section Lines

variable (style : UsageStyle) (context : Context)

theorem takes_get : Takes style "get" key .get :=
  ⟨4, 5, fun context => leadsTo style context rfl rfl rfl (by decide), onlyArgument style rfl rfl,
    commandAt_of_outline style rfl⟩

theorem takes_del : Takes style "del" key .delete :=
  ⟨6, 7, fun context => leadsTo style context rfl rfl rfl (by decide), onlyArgument style rfl rfl,
    commandAt_of_outline style rfl⟩

/-- The redirect of `rm` leads to the node of `del`. -/
theorem takes_rm : Takes style "rm" key .delete :=
  ⟨6, 7, fun context => leadsTo style context rfl rfl rfl (by decide), onlyArgument style rfl rfl,
    commandAt_of_outline style rfl⟩

theorem takes_echo : Takes style "echo" text .echo :=
  ⟨11, 12, fun context => leadsTo style context rfl rfl rfl (by decide), onlyArgument style rfl rfl,
    commandAt_of_outline style rfl⟩

theorem takes_say : Takes style "say" message .say :=
  ⟨15, 16, fun context => leadsTo style context rfl rfl rfl (by decide), onlyArgument style rfl rfl,
    commandAt_of_outline style rfl⟩

variable {style} {verb : Verb}

/-- A line of such a name selects the verb with the value of the argument. -/
theorem Takes.exists_select (h : Takes style name a verb) {value : Value} (hne : t ≠ "")
    (hread : a.type.ReadsAs context t.toList value []) :
    ∃ b, (dispatcher style).select context (name ++ " " ++ t) = .ok (some (verb, b)) ∧
      b.find? a = some value := by
  obtain ⟨start, last, hname, honly, hcommand⟩ := h
  exact Dispatcher.exists_select_of_argument (reachable_dispatcher style) (hname context) honly
    hread hne hcommand

/-- `get`, `del` and `rm` take a key. -/
theorem Takes.exists_select_key (h : Takes style name key verb) (hk : IsKey k) :
    ∃ b, (dispatcher style).select context (name ++ " " ++ k) = .ok (some (verb, b)) ∧
      b.find? key = some (.text k) :=
  h.exists_select context hk.1 (hk.readsAs (stops_nil _))

variable (style)

/-- `echo` takes all of the rest of the line. -/
theorem exists_select_echo (ht : t ≠ "") :
    ∃ b, (dispatcher style).select context ("echo" ++ " " ++ t) = .ok (some (.echo, b)) ∧
      b.find? text = some (.text t) := by
  have hread : text.type.ReadsAs context t.toList (.text (String.ofList t.toList)) [] :=
    ArgumentType.readsAs_greedy
  rw [String.ofList_toList] at hread
  exact (takes_echo style).exists_select context ht hread

/-- `say` takes a text in its quoted form. -/
theorem exists_select_say (s : String) :
    ∃ b, (dispatcher style).select context ("say" ++ " " ++ String.ofList (Quoted.write s.toList)) =
      .ok (some (.say, b)) ∧ b.find? message = some (.text s) := by
  have hread : message.type.ReadsAs context (Quoted.write s.toList) (.text (String.ofList s.toList))
      [] := ArgumentType.readsAs_quoted
  rw [String.ofList_toList, ← @String.toList_ofList (Quoted.write s.toList)] at hread
  have hne : String.ofList (Quoted.write s.toList) ≠ "" := by
    intro hnil
    have hnil := String.toList_eq_nil_iff.2 hnil
    rw [String.toList_ofList] at hnil
    cases hnil
  exact (takes_say style).exists_select context hne hread

/-- `set` takes a key and a number. -/
theorem exists_select_set {n : Int} (hk : IsKey k) (hleast : 0 ≤ n) (hgreatest : n ≤ maxValue) :
    ∃ b, (dispatcher style).select context ("set" ++ " " ++ k ++ " " ++ toString n) =
      .ok (some (.set, b)) ∧ b.find? key = some (.text k) ∧
        b.find? value = some (.number (.integer .int n)) := by
  have hname : (dispatcher style).LeadsTo context "set" 1 :=
    leadsTo style context rfl rfl rfl (by decide)
  have hkey : (dispatcher style).tree.OnlyArgument 1 2 key :=
    onlyArgument style rfl rfl
  have hvalue : (dispatcher style).tree.OnlyArgument 2 3 value :=
    onlyArgument style rfl rfl
  have hcommand : (dispatcher style).commandAt 3 = some .set := commandAt_of_outline style rfl
  have hblank : inWord separator = false := by decide
  have hne : toString n ≠ "" := fun hnil => toString_int_ne_nil n (String.toList_eq_nil_iff.2 hnil)
  exact Dispatcher.exists_select_of_two_arguments (reachable_dispatcher style) hname hkey hvalue
    (by decide) (hk.readsAs (stops_cons hblank _)) (readsAs_value hleast hgreatest) hne hcommand

theorem leadsTo_list : (dispatcher style).LeadsTo context "list" 9 :=
  leadsTo style context rfl rfl rfl (by decide)

theorem commandAt_list : (dispatcher style).commandAt 9 = some .list :=
  commandAt_of_outline style rfl

/-- `list` alone gives no flag. -/
theorem exists_select_list :
    ∃ b, (dispatcher style).select context "list" = .ok (some (.list, b)) ∧
      b.hasFlag verbose = false := by
  obtain ⟨b, hselect, hflags⟩ := Dispatcher.exists_select_of_name (reachable_dispatcher style)
    (leadsTo_list style context) (commandAt_list style)
  exact ⟨b, hselect, by rw [Bindings.hasFlag, hflags]; rfl⟩

/-- `list -v` gives the flag. -/
theorem exists_select_list_verbose :
    ∃ b, (dispatcher style).select context ("list" ++ " " ++ "-v") = .ok (some (.list, b)) ∧
      b.hasFlag verbose = true :=
  Dispatcher.exists_select_of_flag (reachable_dispatcher style) (leadsTo_list style context)
    (onlyFlag style rfl rfl) (commandAt_list style)

end Lines

end Store

end CommandGrammar
