import CommandGrammar.Grammar.Symbol

/-!
# Descriptions of grammars

A `Spec` describes a node with everything below it, before it is part of a grammar. Specs are
drafted: a `CommandDraft` is a literal or an argument to which children, a requirement, a command and
a redirect are given one by one, and a `FlagDraft` is a flag, which takes only children and a
requirement. A draft refuses a second command, a redirect when there are children, and children when
there is a redirect; a requirement or a redirect given again replaces the earlier one.
-/

namespace CommandGrammar

/-- A node with everything below it. -/
structure Spec (κ : Type) where
  /-- What the node stands for. -/
  symbol : Symbol κ
  /-- When the node may be used; always, if there is none. -/
  requirement : Option Requirement
  /-- The nodes directly below. -/
  children : List (Spec κ)

/-- The name of the node among its siblings. -/
def Spec.name {κ : Type} (spec : Spec κ) : String := spec.symbol.name

/-- A literal or an argument in the making. -/
structure CommandDraft (κ : Type) where
  /-- The literal or the argument. -/
  piece : Piece
  /-- The requirement given last. -/
  requirement : Option Requirement := none
  /-- The command and the redirect. -/
  ending : Ending κ := {}
  /-- The children, in the order in which they were given. -/
  children : List (Spec κ) := []

/-- A flag in the making. -/
structure FlagDraft (κ : Type) where
  /-- The character of the flag. -/
  flag : Char
  /-- The requirement given last. -/
  requirement : Option Requirement := none
  /-- The children, in the order in which they were given. -/
  children : List (Spec κ) := []

variable {κ : Type}

/-- A bare literal. -/
def literal (name : String) : CommandDraft κ := { piece := .literal name }

/-- A bare argument. -/
def argument (a : Argument) : CommandDraft κ := { piece := .argument a }

/-- A bare flag. -/
def flag (c : Char) : FlagDraft κ := { flag := c }

namespace CommandDraft

/-- Adds a child behind the others. -/
def child (draft : CommandDraft κ) (spec : Spec κ) : Except Violation (CommandDraft κ) :=
  if draft.ending.redirect.isSome then .error .childUnderRedirect
  else .ok { draft with children := draft.children ++ [spec] }

/-- Sets the requirement. -/
def requires (draft : CommandDraft κ) (requirement : Requirement) : CommandDraft κ :=
  { draft with requirement := some requirement }

/-- Binds a command. -/
def executes (draft : CommandDraft κ) (command : κ) : Except Violation (CommandDraft κ) :=
  (draft.ending.bindCommand command).map fun ending => { draft with ending }

/-- Sets the redirect. -/
def redirects (draft : CommandDraft κ) (target : NodeId) : Except Violation (CommandDraft κ) :=
  if draft.children.isEmpty then
    .ok { draft with ending := { draft.ending with redirect := some target } }
  else .error .redirectOverChildren

/-- The finished node. -/
def toSpec (draft : CommandDraft κ) : Spec κ :=
  ⟨.piece draft.piece draft.ending, draft.requirement, draft.children⟩

end CommandDraft

namespace FlagDraft

/-- Adds a child behind the others. -/
def child (draft : FlagDraft κ) (spec : Spec κ) : FlagDraft κ :=
  { draft with children := draft.children ++ [spec] }

/-- Sets the requirement. -/
def requires (draft : FlagDraft κ) (requirement : Requirement) : FlagDraft κ :=
  { draft with requirement := some requirement }

/-- The finished node. -/
def toSpec (draft : FlagDraft κ) : Spec κ :=
  ⟨.flag draft.flag, draft.requirement, draft.children⟩

end FlagDraft

end CommandGrammar
