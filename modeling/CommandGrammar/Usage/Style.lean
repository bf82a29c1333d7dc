/-!
# The signs in usage lines

A usage line brackets what may be left out, what must be chosen among alternatives, and the names of
arguments. The brackets and the other signs are a matter of style.
-/

namespace CommandGrammar

/-- The signs in usage lines. -/
structure UsageStyle where
  /-- Opens what may be left out. -/
  optionalOpen : String := "["
  /-- Closes what may be left out. -/
  optionalClose : String := "]"
  /-- Opens alternatives one of which must be given. -/
  requiredOpen : String := "("
  /-- Closes alternatives one of which must be given. -/
  requiredClose : String := ")"
  /-- Stands before the name of an argument. -/
  argumentOpen : String := "<"
  /-- Stands behind the name of an argument. -/
  argumentClose : String := ">"
  /-- Stands between alternatives. -/
  alternative : String := "|"
  /-- Stands between an alias and its target. -/
  redirect : String := "->"
  deriving DecidableEq, Repr

namespace UsageStyle

/-- A text, in the brackets of what may be left out if it may. -/
def mark (style : UsageStyle) (optional : Bool) (text : String) : String :=
  if optional then style.optionalOpen ++ text ++ style.optionalClose else text

/-- Alternatives, in the brackets of what may be left out if they may, and otherwise in those of
what must be given. -/
def group (style : UsageStyle) (optional : Bool) (alternatives : List String) : String :=
  let body := style.alternative.intercalate alternatives
  if optional then style.optionalOpen ++ body ++ style.optionalClose
  else style.requiredOpen ++ body ++ style.requiredClose

end UsageStyle

end CommandGrammar
