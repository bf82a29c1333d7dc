import CommandGrammar.Usage.Settings
import CommandGrammar.Yaml.Node

/-!
# The settings of the program

The settings file gives the prompt and the usage style. Both may be left out, and keys that are not
known are ignored, but a known one may stand only once. The prompt and the signs of the style may be
any scalars, and are taken as they are written. In place of keys and values there may be a sequence
of the values in their order.
-/

namespace CommandGrammar.CommandLine

/-- The settings of the program. -/
structure Settings where
  /-- What is shown before a line is read. -/
  prompt : String := "> "
  /-- The style of usage lines. -/
  style : UsageStyle := {}
  deriving DecidableEq, Repr

namespace Settings

/-- The text of a scalar. -/
def text? : Yaml.Node → Option String
  | .scalar s => some s.text
  | _ => none

/-- The fields of a map with texts as keys. -/
def fields? (fields : List (Yaml.Node × Yaml.Node)) : Option (List (String × Yaml.Node)) :=
  fields.mapM fun (key, value) => (text? key).map fun name => (name, value)

/-- The usage style in settings. A value that is left out is the usual style. -/
def style? : Yaml.Node → Option UsageStyle
  | .map fields => do
    UsageStyle.ofFields? ((← fields? fields).map fun (name, sign) => (name, text? sign))
  | .sequence signs => UsageStyle.ofList? (signs.map text?)
  | .scalar s => if s = .nothing then some {} else none
  | .enclosing => none

/-- Takes over a setting. -/
def set? (settings : Settings) (name : String) (value : Yaml.Node) : Option Settings :=
  match name with
  | "prompt" => (text? value).map fun prompt => { settings with prompt }
  | "usage_style" => (style? value).map fun style => { settings with style }
  | _ => some settings

/-- The names of the settings, in their order. -/
def names : List String := ["prompt", "usage_style"]

/-- The settings of some fields. -/
def ofFields? (fields : List (String × Yaml.Node)) : Option Settings :=
  let known := fields.filter fun (name, _) => name ∈ names
  if (known.map Prod.fst).Nodup then
    known.foldlM (fun settings (name, value) => settings.set? name value) {}
  else none

/-- The settings in a value. -/
def ofNode? : Yaml.Node → Option Settings
  | .map fields => do ofFields? (← fields? fields)
  | .sequence values =>
    if values.length ≤ names.length then ofFields? (names.zip values) else none
  | .scalar s => if s = .nothing then some {} else none
  | .enclosing => none

/-- The settings in the text of a file. -/
def read? (text : String) : Option Settings := (Yaml.read? text).bind ofNode?

end Settings

end CommandGrammar.CommandLine
