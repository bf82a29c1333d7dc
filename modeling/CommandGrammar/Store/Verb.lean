import CommandGrammar.Dispatcher
import Std.Data.TreeMap

/-!
# A store of numbers

A `Store` keeps small numbers under words, and a switch. Its verbs change it, and write what they
have to say into its output, from which the caller takes it. A verb that fails changes nothing.
-/

namespace CommandGrammar

/-- Numbers under words, a switch, and the output that nobody has taken yet. -/
structure Store where
  /-- The numbers; words are in the order of their characters. -/
  values : Std.TreeMap String Int := {}
  /-- The switch. -/
  enabled : Bool := false
  /-- The output, line by line. -/
  output : List String := []

namespace Store

/-- The greatest number that the store takes. -/
def maxValue : Int := 1000

/-- The word that a verb is about. -/
def key : Argument := ⟨⟨"key", 0⟩, .text .word⟩

/-- The number to store. -/
def value : Argument := ⟨⟨"value", 1⟩, .integer .int (some (0, maxValue))⟩

/-- The text to repeat. -/
def text : Argument := ⟨⟨"text", 2⟩, .text .greedy⟩

/-- The new state of the switch. -/
def enabledArgument : Argument := ⟨⟨"enabled", 3⟩, .boolean⟩

/-- The quoted text to repeat. -/
def message : Argument := ⟨⟨"message", 4⟩, .text .quoted⟩

/-- The flag that asks for more. -/
def verbose : Char := 'v'

/-- The context key of those who may administer the store. -/
def admin : Key .bool := ⟨"admin"⟩

/-- What can be done with a store. -/
inductive Verb where
  /-- Puts a number under a word. -/
  | set
  /-- Tells the number under a word. -/
  | get
  /-- Forgets a word. -/
  | delete
  /-- Tells all words, with their numbers if asked for more. -/
  | list
  /-- Repeats a text. -/
  | echo
  /-- Turns the switch on or off. -/
  | toggle
  /-- Repeats a quoted text. -/
  | say
  /-- Tells how many words there are and how the switch stands. -/
  | status
  /-- Forgets all words. -/
  | reset
  deriving DecidableEq, Repr

/-- A change of a store, which may fail. -/
abbrev Change (α : Type) := Dispatcher.Action Store α

/-- Writes lines behind the output. -/
def write (lines : List String) : Change Unit :=
  modify fun store => { store with output := store.output ++ lines }

/-- The failure of a verb about a word without a number. -/
def noValue (k : String) : Failure := .action s!"no value for '{k}'"

/-- How a word is told together with its number. -/
def entry (k : String) (n : Int) : String := s!"{k} = {n}"

/-- Does what a verb says. -/
def Verb.run (verb : Verb) (b : Bindings) : Change Unit := do
  match verb with
  | set =>
    let k ← b.getAs .string key
    let n ← b.getAs .int value
    modify fun store => { store with values := store.values.insert k n }
    write [entry k n]
  | get =>
    let k ← b.getAs .string key
    match (← MonadState.get).values[k]? with
    | some n => write [toString n]
    | none => throw (noValue k)
  | delete =>
    let k ← b.getAs .string key
    if k ∈ (← MonadState.get).values then
      modify fun store => { store with values := store.values.erase k }
      write [s!"deleted {k}"]
    else throw (noValue k)
  | list =>
    let entries := (← MonadState.get).values.toList
    write (entries.map fun (k, n) => if b.hasFlag verbose then entry k n else k)
  | echo => write [← b.getAs .string text]
  | toggle =>
    let on ← b.getAs .bool enabledArgument
    modify fun store => { store with enabled := on }
    write [s!"enabled: {on}"]
  | say => write [← b.getAs .string message]
  | status =>
    let store ← MonadState.get
    write [s!"{store.values.size} entries, enabled: {store.enabled}"]
  | reset =>
    let count := (← MonadState.get).values.size
    modify fun store => { store with values := {} }
    write [s!"cleared {count} entries"]

end Store

end CommandGrammar
