import CommandGrammar.Argument

/-!
# What a node of a grammar stands for

A node stands for a piece of a command, which is a literal or an argument, or for a flag. A line may
end at a piece, and the `Ending` of the piece says what then becomes of it: a command is run, or
reading goes on at another node, or neither. A flag has no ending.

A second registration of a piece is absorbed by the first one. Main statements: `Ending.absorb` never
replaces a command or a redirect (`Ending.command_of_absorb`, `Ending.redirect_of_absorb`).
-/

namespace CommandGrammar

/-- A condition on the context under which a node may be used. -/
abbrev Requirement := Context → Bool

/-- A piece of a command. -/
inductive Piece where
  /-- A token of exactly this text. -/
  | literal (name : String)
  /-- A value. -/
  | argument (a : Argument)

/-- The name of a piece. -/
def Piece.name : Piece → String
  | literal name => name
  | argument a => a.name

/-- What becomes of a line that ends at a piece, with commands of type `κ`. -/
structure Ending (κ : Type) where
  /-- The command to run. -/
  command : Option κ := none
  /-- The node at which to read on. -/
  redirect : Option NodeId := none

namespace Ending

variable {κ : Type}

/-- Binds a command, unless there is one. -/
def bindCommand (ending : Ending κ) (command : κ) : Except Violation (Ending κ) :=
  if ending.command.isSome then .error .commandReplaced
  else .ok { ending with command := some command }

/-- Sets the redirect of a node, with or without children, unless it leads elsewhere. -/
def redirectTo (ending : Ending κ) (hasChildren : Bool) (target : NodeId) :
    Except Violation (Ending κ) :=
  if hasChildren then .error .redirectOverChildren
  else
    match ending.redirect with
    | some current => if current = target then .ok ending else .error .redirectReplaced
    | none => .ok { ending with redirect := some target }

/-- Takes over the redirect of another ending, for a node with or without children. -/
def absorbRedirect (ending : Ending κ) (hasChildren : Bool) (incoming : Ending κ) :
    Except Violation (Ending κ) :=
  match incoming.redirect with
  | some target => ending.redirectTo hasChildren target
  | none => .ok ending

/-- Takes over the command of another ending. -/
def absorbCommand (ending incoming : Ending κ) : Except Violation (Ending κ) :=
  match incoming.command with
  | some command => ending.bindCommand command
  | none => .ok ending

/-- Takes over the redirect and then the command of another ending, for a node with or without
children. -/
def absorb (ending : Ending κ) (hasChildren : Bool) (incoming : Ending κ) :
    Except Violation (Ending κ) :=
  match ending.absorbRedirect hasChildren incoming with
  | .ok redirected => redirected.absorbCommand incoming
  | .error violation => .error violation

end Ending

/-- What a node of a grammar stands for. -/
inductive Symbol (κ : Type) where
  /-- A piece of a command, and what becomes of a line that ends there. -/
  | piece (p : Piece) (ending : Ending κ)
  /-- A flag. -/
  | flag (c : Char)

namespace Symbol

variable {κ : Type}

/-- The name of a symbol among its siblings; the name of a flag is a minus sign and its
character. -/
def name : Symbol κ → String
  | piece p _ => p.name
  | flag c => String.ofList ['-', c]

/-- The ending of a piece. -/
def ending? : Symbol κ → Option (Ending κ)
  | piece _ ending => some ending
  | flag _ => none

/-- Whether a symbol is a flag. -/
def isFlag : Symbol κ → Bool
  | piece .. => false
  | flag _ => true

/-- The symbol that stands for this one and another one of the same name, for a node with or
without children. Of two pieces the first one absorbs the ending of the other; in any other case the
first one stays as it is. -/
def absorb (symbol : Symbol κ) (hasChildren : Bool) (incoming : Symbol κ) :
    Except Violation (Symbol κ) :=
  match symbol, incoming with
  | piece p ending, piece _ other => (ending.absorb hasChildren other).map (piece p)
  | _, _ => .ok symbol

end Symbol

/-! ### Nothing is replaced -/

namespace Ending

variable {κ : Type}

theorem absorbCommand_eq_ok {ending incoming result : Ending κ}
    (h : ending.absorbCommand incoming = .ok result) :
    result.redirect = ending.redirect ∧
      ((incoming.command = none ∧ result.command = ending.command) ∨
        (ending.command = none ∧ result.command = incoming.command)) := by
  obtain ⟨command, redirect⟩ := ending
  simp only [absorbCommand, bindCommand] at h
  cases hc : incoming.command <;> cases command <;> simp_all <;> simp [← h]

theorem absorbRedirect_eq_ok {ending incoming result : Ending κ} {hasChildren : Bool}
    (h : ending.absorbRedirect hasChildren incoming = .ok result) :
    result.command = ending.command ∧
      ((incoming.redirect = none ∧ result.redirect = ending.redirect) ∨
        (hasChildren = false ∧ (ending.redirect = none ∨ ending.redirect = incoming.redirect) ∧
          result.redirect = incoming.redirect)) := by
  obtain ⟨command, redirect⟩ := ending
  cases hr : incoming.redirect with
  | none =>
    simp only [absorbRedirect, hr, Except.ok.injEq] at h
    simp [← h]
  | some target =>
    simp only [absorbRedirect, hr, redirectTo] at h
    cases hasChildren with
    | true => simp at h
    | false =>
      cases redirect with
      | none =>
        simp only [Bool.false_eq_true, ↓reduceIte, Except.ok.injEq] at h
        simp [← h]
      | some current =>
        by_cases e : current = target
        · simp only [Bool.false_eq_true, ↓reduceIte, e, Except.ok.injEq] at h
          simp [← h, e]
        · simp [e] at h

/-- A command that is there stays, and one that comes in is bound. -/
theorem command_of_absorb {ending incoming result : Ending κ} {hasChildren : Bool}
    (h : ending.absorb hasChildren incoming = .ok result) :
    (incoming.command = none ∧ result.command = ending.command) ∨
      (ending.command = none ∧ result.command = incoming.command) := by
  simp only [absorb] at h
  split at h
  · rename_i redirected hr
    rw [← (absorbRedirect_eq_ok hr).1]
    exact (absorbCommand_eq_ok h).2
  · simp at h

/-- A redirect that is there stays, and one that comes in is set, if there are no children. -/
theorem redirect_of_absorb {ending incoming result : Ending κ} {hasChildren : Bool}
    (h : ending.absorb hasChildren incoming = .ok result) :
    (incoming.redirect = none ∧ result.redirect = ending.redirect) ∨
      (hasChildren = false ∧ (ending.redirect = none ∨ ending.redirect = incoming.redirect) ∧
        result.redirect = incoming.redirect) := by
  simp only [absorb] at h
  split at h
  · rename_i redirected hr
    rw [(absorbCommand_eq_ok h).1]
    exact (absorbRedirect_eq_ok hr).2
  · simp at h

end Ending

end CommandGrammar
