import CommandGrammar.Argument

/-!
# What a path through a grammar collects

`Bindings` are what a command gets to see of its line: the context, the values of the arguments
with their spans, and the flags. A `Trail` collects them while a line is read, and remembers besides
how far the literals of the path reach. Values are kept by the identity of their argument, and the
last one recorded under an identity counts. What values may be is left open; `Value` holds those of
the types at hand, and `Dynamic` ones are of any types whatever.

Main statements: `find?_addArgument`, `find?_addFlag` and `find?_addLiteral` say what each recording
does to the value of an argument.
-/

namespace CommandGrammar

/-- The value of an argument and where it stands in the line. -/
structure Binding (ν : Type := Value) where
  /-- Where the value stands. -/
  span : Span
  /-- The value. -/
  value : ν
  deriving DecidableEq

/-- A flag and where it stands in the line. -/
structure FlagHit where
  /-- Where the flag stands. -/
  span : Span
  /-- The character of the flag. -/
  flag : Char
  deriving DecidableEq

/-- What a command gets to see of its line. -/
structure Bindings (ν : Type := Value) where
  /-- The context of the line. -/
  context : Context
  /-- The arguments. -/
  arguments : Table ArgumentKey (Binding ν)
  /-- The flags, in the order of the line. -/
  flags : List FlagHit

/-- Bindings, and the span from the beginning of the path to the end of its last literal. -/
structure Trail (ν : Type := Value) extends Bindings ν where
  /-- How far the literals of the path reach. -/
  literals : Span

/-! ### Values by type -/

/-- A value as one of a context type, if it is one. -/
def Value.as? : (τ : ValueType) → Value → Option τ.Carrier
  | .string, .text s => some s
  | .int, .number (.integer .int n) => some n
  | .long, .number (.integer .long n) => some n
  | .bool, .boolean b => some b
  | _, _ => none

namespace Bindings

variable {ν : Type}

/-- The value of an argument. -/
def find? (b : Bindings ν) (a : Argument) : Option ν :=
  (b.arguments.find? a.key).map Binding.value

/-- Where the value of an argument stands. -/
def span? (b : Bindings ν) (a : Argument) : Option Span :=
  (b.arguments.find? a.key).map Binding.span

/-- Whether an argument has a value. -/
def hasArgument (b : Bindings ν) (a : Argument) : Bool := (b.find? a).isSome

/-- The value of an argument as one of type `τ`, if it is one. -/
def findAs? {ι : Type} [DecidableEq ι] {Carrier : ι → Type} (b : Bindings (Dynamic Carrier)) (τ : ι)
    (a : Argument) : Option (Carrier τ) :=
  (b.find? a).bind (·.as? τ)

/-- The value of an argument, which must have one. -/
def get (b : Bindings ν) (a : Argument) : Except Failure ν :=
  match b.find? a with
  | some value => .ok value
  | none => .error (.violation (.missingArgument a.name))

/-- The value of an argument, which must have one of type `τ`. -/
def getAs (b : Bindings) (τ : ValueType) (a : Argument) : Except Failure τ.Carrier := do
  let value ← b.get a
  match value.as? τ with
  | some carrier => .ok carrier
  | none => .error (.violation (.mistypedArgument a.name τ))

/-- The value of an argument, or another value if it has none. -/
def getD (b : Bindings ν) (a : Argument) (default : ν) : ν := (b.find? a).getD default

/-- Whether a flag was given. -/
def hasFlag (b : Bindings ν) (flag : Char) : Bool := b.flags.any fun hit => hit.flag = flag

/-- The names of all arguments with a value in increasing order; a name is repeated for each
argument that has it. -/
def argumentNames (b : Bindings ν) : List String :=
  (b.arguments.keys.map ArgumentKey.name).mergeSort fun x y => decide (x ≤ y)

end Bindings

namespace Trail

variable {ν : Type}

/-- The trail of a path that begins at a place. -/
def start (context : Context) (c : Cursor) : Trail ν := ⟨⟨context, ∅, []⟩, .point c.index⟩

/-- Records a literal. -/
def addLiteral (t : Trail ν) (span : Span) : Trail ν := { t with literals := t.literals.hull span }

/-- Records the value of an argument. -/
def addArgument (t : Trail ν) (a : Argument) (span : Span) (value : ν) : Trail ν :=
  { t with arguments := t.arguments.insert a.key ⟨span, value⟩ }

/-- Records a flag. -/
def addFlag (t : Trail ν) (span : Span) (flag : Char) : Trail ν :=
  { t with flags := t.flags ++ [⟨span, flag⟩] }

@[simp] theorem find?_addLiteral (t : Trail ν) (span : Span) (a : Argument) :
    (t.addLiteral span).find? a = t.find? a := rfl

@[simp] theorem find?_addFlag (t : Trail ν) (span : Span) (flag : Char) (a : Argument) :
    (t.addFlag span flag).find? a = t.find? a := rfl

/-- A recording changes the value of its own argument and of no other, not even of one with the
same name. -/
theorem find?_addArgument (t : Trail ν) (a b : Argument) (span : Span) (value : ν) :
    (t.addArgument a span value).find? b = if a.key = b.key then some value else t.find? b := by
  simp only [Bindings.find?, addArgument, Table.find?_insert]
  split <;> rfl

end Trail

end CommandGrammar
