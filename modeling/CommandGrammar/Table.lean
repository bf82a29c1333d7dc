/-!
# Tables

A `Table κ α` maps keys to values and holds each key at most once. A key keeps the place at which it
was first inserted; a later insertion under the same key replaces its value.

Main statements: a look-up after an insertion finds the new value at its key and the old ones
elsewhere (`find?_insert`), and a look-up after an erasure finds nothing at its key
(`find?_erase`). A look-up finds the entries (`find?_eq_some_iff`), and no others.
-/

namespace CommandGrammar

/-- A finite map, as its entries in the order in which their keys were first inserted. -/
structure Table (κ : Type) (α : Type) where
  /-- The entries. -/
  entries : List (κ × α)
  /-- No key occurs twice. -/
  nodup_keys : (entries.map Prod.fst).Nodup

namespace Table

variable {κ α : Type}

/-- The table without entries. -/
def empty : Table κ α := ⟨[], by simp⟩

instance : EmptyCollection (Table κ α) := ⟨empty⟩

instance : Inhabited (Table κ α) := ⟨empty⟩

/-- The keys, in the order of their first insertion. -/
def keys (t : Table κ α) : List κ := t.entries.map Prod.fst

/-- The number of keys. -/
def size (t : Table κ α) : Nat := t.entries.length

/-- Whether the table holds no key. -/
def isEmpty (t : Table κ α) : Bool := t.entries.isEmpty

variable [DecidableEq κ]

/-- The value of a key in a list of entries. -/
def valueIn (key : κ) : List (κ × α) → Option α
  | [] => none
  | entry :: entries => if entry.1 = key then some entry.2 else valueIn key entries

/-- Sets the value of a key in a list of entries, in the place of the key's own entry if there is
one and at the end otherwise. -/
def setEntry (key : κ) (value : α) : List (κ × α) → List (κ × α)
  | [] => [(key, value)]
  | entry :: entries =>
    if entry.1 = key then (key, value) :: entries else entry :: setEntry key value entries

theorem mem_keys_setEntry {key k : κ} {value : α} {entries : List (κ × α)} :
    k ∈ (setEntry key value entries).map Prod.fst ↔ k = key ∨ k ∈ entries.map Prod.fst := by
  induction entries with
  | nil => simp [setEntry]
  | cons entry entries ih =>
    by_cases h : entry.1 = key
    · simp [setEntry, h]
    · simp only [setEntry, h, ↓reduceIte, List.map_cons, List.mem_cons, ih]
      grind

theorem nodup_keys_setEntry {key : κ} {value : α} {entries : List (κ × α)}
    (h : (entries.map Prod.fst).Nodup) : ((setEntry key value entries).map Prod.fst).Nodup := by
  induction entries with
  | nil => simp [setEntry]
  | cons entry entries ih =>
    rw [List.map_cons, List.nodup_cons] at h
    by_cases hk : entry.1 = key
    · rw [setEntry, if_pos hk, List.map_cons, List.nodup_cons]
      exact hk ▸ h
    · rw [setEntry, if_neg hk, List.map_cons, List.nodup_cons, mem_keys_setEntry]
      exact ⟨fun hm => hm.elim hk h.1, ih h.2⟩

/-- The value of a key. -/
def find? (t : Table κ α) (key : κ) : Option α := valueIn key t.entries

/-- Whether a key has a value. -/
def contains (t : Table κ α) (key : κ) : Bool := (t.find? key).isSome

/-- Gives a key a value, which replaces the one it may have had. -/
def insert (t : Table κ α) (key : κ) (value : α) : Table κ α :=
  ⟨setEntry key value t.entries, nodup_keys_setEntry t.nodup_keys⟩

/-- Forgets a key. -/
def erase (t : Table κ α) (key : κ) : Table κ α :=
  ⟨t.entries.filter fun entry => entry.1 ≠ key,
    t.nodup_keys.sublist (List.filter_sublist.map Prod.fst)⟩

@[simp] theorem find?_empty (key : κ) : (∅ : Table κ α).find? key = none := rfl

/-- An insertion changes the value of its own key and of no other. -/
theorem find?_insert (t : Table κ α) (key k : κ) (value : α) :
    (t.insert key value).find? k = if key = k then some value else t.find? k := by
  simp only [find?, insert]
  induction t.entries with
  | nil => by_cases h : key = k <;> simp [setEntry, valueIn, h]
  | cons entry entries ih => grind [setEntry, valueIn]

/-- An erasure forgets its own key and no other. -/
theorem find?_erase (t : Table κ α) (key k : κ) :
    (t.erase key).find? k = if key = k then none else t.find? k := by
  simp only [find?, erase]
  induction t.entries with
  | nil => simp [valueIn]
  | cons entry entries ih => grind [valueIn]

theorem mem_of_valueIn {key : κ} {value : α} {entries : List (κ × α)}
    (h : valueIn key entries = some value) : (key, value) ∈ entries := by
  induction entries with
  | nil => cases h
  | cons entry entries ih =>
    rw [valueIn] at h
    split at h
    · rename_i hk
      obtain rfl := Option.some.inj h
      exact List.mem_cons.2 (.inl (Prod.ext hk.symm rfl))
    · exact List.mem_cons_of_mem _ (ih h)

/-- What is found under a key was put there. -/
theorem mem_entries_of_find? {t : Table κ α} {key : κ} {value : α} (h : t.find? key = some value) :
    (key, value) ∈ t.entries :=
  mem_of_valueIn h

theorem valueIn_of_mem {key : κ} {value : α} {entries : List (κ × α)}
    (hnodup : (entries.map Prod.fst).Nodup) (h : (key, value) ∈ entries) :
    valueIn key entries = some value := by
  induction entries with
  | nil => cases h
  | cons entry entries ih =>
    rw [List.map_cons, List.nodup_cons] at hnodup
    rcases List.mem_cons.1 h with rfl | h
    · exact if_pos rfl
    · have hne : entry.1 ≠ key := fun hkey => hnodup.1 (hkey ▸ List.mem_map_of_mem h)
      rw [valueIn, if_neg hne, ih hnodup.2 h]

/-- A look-up finds the entries and nothing else. -/
theorem find?_eq_some_iff {t : Table κ α} {key : κ} {value : α} :
    t.find? key = some value ↔ (key, value) ∈ t.entries :=
  ⟨mem_entries_of_find?, valueIn_of_mem t.nodup_keys⟩

/-- A key has a value if it is one of the keys. -/
theorem isSome_find? {t : Table κ α} {key : κ} : (t.find? key).isSome = true ↔ key ∈ t.keys := by
  simp only [Option.isSome_iff_exists, find?_eq_some_iff, keys, List.mem_map, Prod.exists,
    exists_and_right, exists_eq_right]

theorem ne_of_valueIn_eq_none {key : κ} {entries : List (κ × α)} (h : valueIn key entries = none) :
    ∀ entry ∈ entries, entry.1 ≠ key := by
  induction entries with
  | nil => nofun
  | cons entry entries ih =>
    rw [valueIn] at h
    split at h
    · cases h
    · rename_i hk
      exact List.forall_mem_cons.2 ⟨hk, ih h⟩

/-- Without the key there is nothing to forget. -/
theorem erase_eq_self {t : Table κ α} {key : κ} (h : t.find? key = none) : t.erase key = t := by
  obtain ⟨entries, hnodup⟩ := t
  simp only [erase, mk.injEq, List.filter_eq_self, decide_eq_true_eq]
  exact ne_of_valueIn_eq_none h

theorem filter_setEntry {key : κ} {entries : List (κ × α)} (h : valueIn key entries = none)
    (value : α) : (setEntry key value entries).filter (fun entry => entry.1 ≠ key) = entries := by
  induction entries with
  | nil => simp [setEntry]
  | cons entry entries ih =>
    rw [valueIn] at h
    split at h
    · cases h
    · rename_i hk
      rw [setEntry, if_neg hk, List.filter_cons_of_pos (by simpa using hk), ih h]

/-- A key without a value comes and goes without a trace. -/
theorem erase_insert {t : Table κ α} {key : κ} (h : t.find? key = none) (value : α) :
    (t.insert key value).erase key = t := by
  obtain ⟨entries, hnodup⟩ := t
  simp only [insert, erase, mk.injEq]
  exact filter_setEntry h value

end Table

end CommandGrammar
