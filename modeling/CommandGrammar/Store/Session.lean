import CommandGrammar.Store.Verb

/-!
# Sessions with a store

The grammar of the store's commands, and sessions in which lines of them are executed one after the
other. `rm` is another name for `del`; `admin` and what is below it may be used only in a context
that says so.
-/

namespace CommandGrammar.Store

/-! ### The grammar -/

/-- A literal with one child. -/
def literalWith (name : String) (child : CommandDraft Verb) :
    Except Violation (CommandDraft Verb) :=
  (literal name).child child.toSpec

/-- `set <key> <value>` -/
def setCommand : Except Violation (CommandDraft Verb) := do
  literalWith "set" (← (argument key).child (← (argument value).executes .set).toSpec)

/-- `get <key>` -/
def getCommand : Except Violation (CommandDraft Verb) := do
  literalWith "get" (← (argument key).executes .get)

/-- `del <key>` -/
def delCommand : Except Violation (CommandDraft Verb) := do
  literalWith "del" (← (argument key).executes .delete)

/-- `list [-v]` -/
def listCommand : Except Violation (CommandDraft Verb) := do
  (← (literal "list").executes .list).child (flag verbose).toSpec

/-- `echo <text>` -/
def echoCommand : Except Violation (CommandDraft Verb) := do
  literalWith "echo" (← (argument text).executes .echo)

/-- `toggle <enabled>` -/
def toggleCommand : Except Violation (CommandDraft Verb) := do
  literalWith "toggle" (← (argument enabledArgument).executes .toggle)

/-- `say <message>` -/
def sayCommand : Except Violation (CommandDraft Verb) := do
  literalWith "say" (← (argument message).executes .say)

/-- Whether a context is that of an administrator. -/
def isAdmin (context : Context) : Bool := (context.find? admin).getD false

/-- `admin [reset]` -/
def adminCommand : Except Violation (CommandDraft Verb) := do
  (← ((literal "admin").requires isAdmin).executes .status).child
    (← (literal "reset").executes .reset).toSpec

/-- All commands, in the order in which usage lists them. -/
def grammar : Except Violation (Dispatcher Verb) := do
  let (d, _) ← Dispatcher.register {} (← setCommand)
  let (d, _) ← d.register (← getCommand)
  let (d, del) ← d.register (← delCommand)
  let (d, _) ← d.register (← (literal "rm").redirects del)
  let (d, _) ← d.register (← listCommand)
  let (d, _) ← d.register (← echoCommand)
  let (d, _) ← d.register (← toggleCommand)
  let (d, _) ← d.register (← sayCommand)
  let (d, _) ← d.register (← adminCommand)
  return d

/-- The grammar breaks no rule. -/
theorem grammar_isOk : grammar.isOk = true := by decide +kernel

/-- The commands with a style for their usage lines. -/
def dispatcher (style : UsageStyle) : Dispatcher Verb :=
  match h : grammar with
  | .ok d => { d with style }
  | .error _ => absurd grammar_isOk (by simp [h, Except.isOk, Except.toBool])

/-! ### Sessions -/

/-- The commands, and the store as the lines so far have left it. -/
structure Session where
  /-- The commands. -/
  dispatcher : Dispatcher Verb
  /-- The store. -/
  store : Store := {}

namespace Session

/-- A session with an empty store. -/
def new (style : UsageStyle) : Session := { dispatcher := Store.dispatcher style }

/-- Executes a line, and gives its output, or why it failed, and the session after it. -/
def execute (session : Session) (context : Context) (line : String) :
    Except Failure (List String) × Session :=
  let (result, store) := (session.dispatcher.execute Verb.run context line).run session.store
  (result.map fun () => store.output, { session with store := { store with output := [] } })

/-- The usage of what is below a path. -/
def usage (session : Session) (context : Context) (path : List String) :
    Except Violation (Option (List String)) :=
  session.dispatcher.usageLines context path

end Session

end CommandGrammar.Store
