import CommandGrammar.TypedTable

/-!
# Contexts

A `Context` holds what the caller says about the person and the occasion of a command: values under
typed keys. Requirements, argument types and commands read it and never change it. It is a
`TypedTable`, and so keys of one name and different types are different keys.
-/

namespace CommandGrammar

/-- The types of context values. -/
inductive ValueType where
  /-- Texts. -/
  | string
  /-- Integers of thirty-two bits. -/
  | int
  /-- Integers of sixty-four bits. -/
  | long
  /-- Truth values. -/
  | bool
  deriving DecidableEq, Repr

namespace ValueType

/-- The values of a type. -/
abbrev Carrier : ValueType → Type
  | string => String
  | int => Int
  | long => Int
  | bool => Bool

/-- The name of a type in messages. -/
def name : ValueType → String
  | string => "alloc::string::String"
  | int => "i32"
  | long => "i64"
  | bool => "bool"

end ValueType

/-- A key of context values of type `τ`. -/
abbrev Key (τ : ValueType) : Type := TypedKey τ

/-- Values under typed keys. -/
abbrev Context : Type := TypedTable ValueType.Carrier

/-- The context without values. -/
abbrev Context.empty : Context := TypedTable.empty

end CommandGrammar
