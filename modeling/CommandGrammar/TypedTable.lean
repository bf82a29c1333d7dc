import CommandGrammar.Table

/-!
# Tables with typed keys

A `TypedTable` maps keys to values of many types. A key has a name and a type, and its values are of
that type; keys of one name and different types are different keys. Each type has a table of its own,
which holds its values as `Dynamic` ones: only a look-up with a key asks what type they are of.

Main statements: a look-up after an insertion finds the new value at its key and the old ones
elsewhere (`find?_put_self`, `find?_put_of_name_ne`, `find?_put_of_type_ne`). No table of a type holds
a value of another one, so a key that has a value has one of its type (`isSome_find?`).
-/

namespace CommandGrammar

variable {ι : Type} {Carrier : ι → Type}

/-! ### Values with their type -/

/-- A value together with its type; `Carrier τ` are the values of type `τ`. -/
structure Dynamic (Carrier : ι → Type) where
  /-- The type. -/
  type : ι
  /-- The value. -/
  value : Carrier type

namespace Dynamic

variable [DecidableEq ι] {τ : ι}

/-- The value as one of a type, if it is one. -/
def as? (d : Dynamic Carrier) (τ : ι) : Option (Carrier τ) :=
  if h : d.type = τ then some (h ▸ d.value) else none

@[simp] theorem as?_mk (value : Carrier τ) : (⟨τ, value⟩ : Dynamic Carrier).as? τ = some value := by
  simp [as?]

theorem isSome_as? {d : Dynamic Carrier} : (d.as? τ).isSome = true ↔ d.type = τ := by
  unfold as?
  split <;> simpa

end Dynamic

/-! ### Tables -/

/-- A key of values of type `τ`. -/
structure TypedKey (τ : ι) where
  /-- The name of the key. -/
  name : String
  deriving DecidableEq

/-- What a key asks for that is not there. -/
structure MissingEntry (ι : Type) where
  /-- The name of the key. -/
  name : String
  /-- The type of the key. -/
  type : ι

/-- Values under typed keys. -/
structure TypedTable [DecidableEq ι] (Carrier : ι → Type) where
  /-- The values of each type, by name. -/
  tables : Table ι (Table String (Dynamic Carrier))
  /-- The values of a type are of that type. -/
  type_eq : ∀ {τ table name d}, tables.find? τ = some table → table.find? name = some d → d.type = τ

namespace TypedTable

variable [DecidableEq ι] {τ σ : ι}

/-- The table without values. -/
def empty : TypedTable Carrier := ⟨∅, nofun⟩

/-- The table of the values of a type. -/
def tableOf (t : TypedTable Carrier) (τ : ι) : Table String (Dynamic Carrier) :=
  (t.tables.find? τ).getD ∅

/-- What is stored under a key. -/
def lookUp? (t : TypedTable Carrier) (key : TypedKey τ) : Option (Dynamic Carrier) :=
  (t.tableOf τ).find? key.name

/-- Values are kept under their own type only. -/
theorem type_eq_of_find?_tableOf {t : TypedTable Carrier} {name : String} {d : Dynamic Carrier}
    (h : (t.tableOf τ).find? name = some d) : d.type = τ := by
  unfold tableOf at h
  cases htable : t.tables.find? τ with
  | none =>
    rw [htable] at h
    cases h
  | some table =>
    rw [htable] at h
    exact t.type_eq htable h

/-- Gives a key a value, which replaces the one it may have had. -/
def put (t : TypedTable Carrier) (key : TypedKey τ) (value : Carrier τ) : TypedTable Carrier where
  tables := t.tables.insert τ ((t.tableOf τ).insert key.name ⟨τ, value⟩)
  type_eq := by
    intro σ table name d htable hd
    rw [Table.find?_insert] at htable
    split at htable
    · rename_i hσ
      obtain rfl := Option.some.inj htable
      rw [Table.find?_insert] at hd
      split at hd
      · exact Option.some.inj hd ▸ hσ
      · exact (type_eq_of_find?_tableOf hd).trans hσ
    · exact t.type_eq htable hd

/-- The value of a key. Values never change, so it does not matter whether it is a copy. -/
def find? (t : TypedTable Carrier) (key : TypedKey τ) : Option (Carrier τ) :=
  (t.lookUp? key).bind (·.as? τ)

/-- Whether there is a value under a key. -/
def contains (t : TypedTable Carrier) (key : TypedKey τ) : Bool := (t.lookUp? key).isSome

/-- The value of a key, which must have one. -/
def require (t : TypedTable Carrier) (key : TypedKey τ) : Except (MissingEntry ι) (Carrier τ) :=
  match t.find? key with
  | some value => .ok value
  | none => .error ⟨key.name, τ⟩

/-- The number of keys that have a value. -/
def size (t : TypedTable Carrier) : Nat :=
  t.tables.entries.foldl (fun total entry => total + entry.2.size) 0

/-- Whether no key has a value. -/
def isEmpty (t : TypedTable Carrier) : Bool := t.size == 0

/-- The names of all keys in increasing order; a name is repeated for each type that has it. -/
def names (t : TypedTable Carrier) : List String :=
  (t.tables.entries.flatMap fun entry => entry.2.keys).mergeSort fun a b => decide (a ≤ b)

/-! ### Looking up -/

@[simp] theorem find?_empty (key : TypedKey τ) : (empty : TypedTable Carrier).find? key = none := rfl

theorem tableOf_put (t : TypedTable Carrier) (key : TypedKey τ) (value : Carrier τ) (σ : ι) :
    (t.put key value).tableOf σ =
      if τ = σ then (t.tableOf τ).insert key.name ⟨τ, value⟩ else t.tableOf σ := by
  rw [tableOf, put, Table.find?_insert]
  split <;> rfl

theorem lookUp?_put (t : TypedTable Carrier) (key : TypedKey τ) (value : Carrier τ)
    (other : TypedKey σ) : (t.put key value).lookUp? other =
      if τ = σ ∧ key.name = other.name then some ⟨τ, value⟩ else t.lookUp? other := by
  rw [lookUp?, tableOf_put]
  by_cases hτ : τ = σ
  · subst hτ
    rw [if_pos rfl, Table.find?_insert]
    simp only [true_and, lookUp?]
  · rw [if_neg hτ, if_neg (fun h => hτ h.1)]
    rfl

/-- The value just put is found under its key. -/
@[simp] theorem find?_put_self (t : TypedTable Carrier) (key : TypedKey τ) (value : Carrier τ) :
    (t.put key value).find? key = some value := by
  rw [find?, lookUp?_put, if_pos ⟨rfl, rfl⟩, Option.bind_some, Dynamic.as?_mk]

/-- Putting a value under a key leaves the other keys of its type alone. -/
theorem find?_put_of_name_ne (t : TypedTable Carrier) {key other : TypedKey τ} (value : Carrier τ)
    (h : key.name ≠ other.name) : (t.put key value).find? other = t.find? other := by
  rw [find?, lookUp?_put, if_neg fun heq => h heq.2]
  rfl

/-- Putting a value under a key leaves the keys of other types alone. -/
theorem find?_put_of_type_ne (t : TypedTable Carrier) (key : TypedKey τ) (other : TypedKey σ)
    (value : Carrier τ) (h : τ ≠ σ) : (t.put key value).find? other = t.find? other := by
  rw [find?, lookUp?_put, if_neg fun heq => h heq.1]
  rfl

/-- A key that has a value has one of its type. -/
theorem isSome_find? (t : TypedTable Carrier) (key : TypedKey τ) :
    (t.find? key).isSome = t.contains key := by
  unfold find? contains
  cases h : t.lookUp? key with
  | none => rfl
  | some d => exact Dynamic.isSome_as?.2 (type_eq_of_find?_tableOf h)

end TypedTable

end CommandGrammar
