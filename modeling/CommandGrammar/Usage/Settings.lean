import CommandGrammar.Json.Reader
import CommandGrammar.Usage.Style

/-!
# Usage styles in settings

A usage style can be given field by field. A field that is left out keeps its usual sign, and a
field that is not known is ignored; a known one must be a text and may be given only once. In an
array the signs stand in the order of the fields, and there may be fewer of them but not more.
-/

namespace CommandGrammar.UsageStyle

/-- The names of the fields in settings, in their order. -/
def fieldNames : List String :=
  ["optional_open", "optional_close", "required_open", "required_close", "argument_open",
    "argument_close", "or", "redirect"]

/-- The signs in the order of the fields. -/
def toList (style : UsageStyle) : List String :=
  [style.optionalOpen, style.optionalClose, style.requiredOpen, style.requiredClose,
    style.argumentOpen, style.argumentClose, style.alternative, style.redirect]

/-- The style with a sign in place of the one of a field. -/
def set (style : UsageStyle) (field sign : String) : UsageStyle :=
  match field with
  | "optional_open" => { style with optionalOpen := sign }
  | "optional_close" => { style with optionalClose := sign }
  | "required_open" => { style with requiredOpen := sign }
  | "required_close" => { style with requiredClose := sign }
  | "argument_open" => { style with argumentOpen := sign }
  | "argument_close" => { style with argumentClose := sign }
  | "or" => { style with alternative := sign }
  | "redirect" => { style with redirect := sign }
  | _ => style

/-- The style of some fields. -/
def ofFields? (fields : List (String × Option String)) : Option UsageStyle := do
  let known := fields.filter fun (field, _) => field ∈ fieldNames
  if (known.map Prod.fst).Nodup then
    known.foldlM (fun style (field, sign?) => sign?.map (style.set field)) {}
  else none

/-- The style of some signs in the order of the fields. -/
def ofList? (signs : List (Option String)) : Option UsageStyle :=
  if signs.length ≤ fieldNames.length then ofFields? (fieldNames.zip signs) else none

/-- The style in a JSON text. -/
def ofJson? (text : String) : Option UsageStyle :=
  match Json.readFlat? text with
  | some (.object fields) => ofFields? fields
  | some (.array signs) => ofList? signs
  | _ => none

end CommandGrammar.UsageStyle
