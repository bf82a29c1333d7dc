import CommandGrammar.Grammar.Spec
import CommandGrammar.Grammar.Tree
import CommandGrammar.Text.Escaped
import CommandGrammar.Trail

/-!
# Descriptions of values

For diagnosis, the values of this library can be described in one line. A description names the
type of a value and its fields; functions, such as requirements and commands, are described only by
whether they are there. The names of types and fields in descriptions are part of the output format.
-/

namespace CommandGrammar

/-! ### The format -/

namespace Description

/-- A value with a name and named fields. -/
def record (name : String) (fields : List (String × String)) : String :=
  let body := fields.map fun (field, value) => field ++ ": " ++ value
  name ++ " \x7b " ++ ", ".intercalate body ++ " \x7d"

/-- A value with a name and one unnamed field. -/
def variant (name value : String) : String := name ++ "(" ++ value ++ ")"

/-- A list. -/
def list (values : List String) : String := "[" ++ ", ".intercalate values ++ "]"

/-- A value that may be absent. -/
def option : Option String → String
  | none => "None"
  | some value => variant "Some" value

/-- The number of a node. -/
def nodeId (id : NodeId) : String := variant "NodeId" (toString id)

/-- The bounds of a number. -/
def bounds (least greatest : Number) : String :=
  "(" ++ least.write .described ++ ", " ++ greatest.write .described ++ ")"

end Description

open Description

/-! ### Arguments -/

/-- The name of a mode. -/
def TextMode.name : TextMode → String
  | word => "Word"
  | greedy => "Greedy"
  | quoted => "Quoted"

/-- Describes an argument type. -/
def ArgumentType.describe : ArgumentType → String
  | integer kind limits =>
    record "NumberArgument"
      [("bounds", option (limits.map fun (a, b) => bounds (.integer kind a) (.integer kind b)))]
  | floating kind limits =>
    record "NumberArgument"
      [("bounds", option (limits.map fun (a, b) => bounds (.floating kind a) (.floating kind b)))]
  | text mode => record "StringArgument" [("mode", mode.name)]
  | boolean => "BooleanArgument"
  | custom type => type.description

/-- Describes an argument. -/
def Argument.describe (a : Argument) : String :=
  record "Argument" [("name", Escaped.text a.name), ("kind", a.type.describe)]

/-! ### Contexts -/

/-- Describes a key. -/
def Key.describe {τ : ValueType} (key : Key τ) : String :=
  record "Key" [("type", Escaped.text τ.name), ("name", Escaped.text key.name)]

/-- Describes a context by the names of its keys. -/
def Context.describe (context : Context) : String :=
  record "CommandContext" [("keys", list (context.names.map Escaped.text))]

/-! ### Trails -/

/-- Describes a span. -/
def Span.describe (span : Span) : String :=
  record "StringRange" [("start", toString span.start), ("end", toString span.stop)]

/-- Describes a flag in a line. -/
def FlagHit.describe (hit : FlagHit) : String :=
  record "FlagHit" [("range", hit.span.describe), ("flag", Escaped.char hit.flag)]

/-- The fields of bindings that are described. -/
def Bindings.describedFields (b : Bindings) : List (String × String) :=
  [("arguments", list (b.argumentNames.map Escaped.text)),
    ("flags", list (b.flags.map FlagHit.describe))]

/-- Describes bindings by the names of the arguments and the flags. -/
def Bindings.describe (b : Bindings) : String := record "CommandStack" b.describedFields

/-- Describes a trail. -/
def Trail.describe (t : Trail) : String :=
  record "StackBuilder" (t.describedFields ++ [("literal_range", t.literals.describe)])

/-! ### Grammars -/

/-- Describes a literal or an argument. -/
def Piece.describe : Piece → String
  | literal name => variant "Literal" (Escaped.text name)
  | argument a => variant "Argument" a.describe

variable {κ : Type}

/-- Describes the ending of a piece. -/
def Ending.describe (ending : Ending κ) : String :=
  record "Executable"
    [("command", toString ending.command.isSome), ("redirect", option (ending.redirect.map nodeId))]

/-- Describes what a node stands for, without its ending. -/
def Symbol.describe : Symbol κ → String
  | piece p _ => p.describe
  | flag c => variant "Flag" (Escaped.char c)

mutual

/-- Describes a spec with everything below it. -/
def Spec.describe : Spec κ → String
  | ⟨symbol, requirement, children⟩ =>
    record "NodeSpec"
      [("kind", symbol.describe), ("requirement", toString requirement.isSome),
        ("executable", option (symbol.ending?.map Ending.describe)),
        ("children", list (Spec.describeAll children))]

/-- Describes specs one by one. -/
def Spec.describeAll : List (Spec κ) → List String
  | [] => []
  | spec :: specs => spec.describe :: Spec.describeAll specs

end

/-- Describes the draft of a literal or an argument. -/
def CommandDraft.describe (draft : CommandDraft κ) : String :=
  record "CommandBuilder"
    [("kind", draft.piece.describe), ("command", toString draft.ending.command.isSome),
      ("redirect", option (draft.ending.redirect.map nodeId)),
      ("children", toString draft.children.length)]

/-- Describes the draft of a flag. -/
def FlagDraft.describe (draft : FlagDraft κ) : String :=
  record "FlagBuilder"
    [("flag", Escaped.char draft.flag), ("children", toString draft.children.length)]

/-- Describes a node. -/
def Node.describe (node : Node κ) : String :=
  record "Node"
    [("kind", (node.symbol?.map Symbol.describe).getD "Root"),
      ("requirement", toString node.requirement.isSome),
      ("executable", option (node.ending?.map Ending.describe)),
      ("children", list (node.children.order.map nodeId))]

end CommandGrammar
