import CommandGrammar.Context
import Mathlib.Data.Finset.Card
import Mathlib.Data.Finset.Dedup

/-!
# The last write counts

A run of steps, each of which writes to a place or leaves it alone, leaves in that place what was
written last (`foldl_eq_getLast?`); where each step adds to a list, it leaves all that was added
(`foldl_eq_append_filterMap`). This module applies that to tables with typed keys, and so to contexts:
a sequence of assignments, each of a value of some type to a name, makes a table that says of each key
what the last assignment to that name and type says (`TypedTable.Mirrors`).

Main statement: every sequence of assignments is mirrored in the table that it makes
(`TypedTable.mirrors_assignAll`). The table is one of tables, and its size is nevertheless the number
of different pairs of a type and a name, since no pair stands in it twice
(`TypedTable.nodup_addresses`).
-/

namespace CommandGrammar

/-! ### Runs of steps -/

/-- A place holds what was last written to it, if anything was, and otherwise what it held. -/
theorem foldl_eq_getLast? {σ ε α : Type} {step : σ → ε → σ} (look : σ → Option α)
    (written : ε → Option α) (h : ∀ s e, look (step s e) = (written e).or (look s)) (s : σ)
    (es : List ε) : look (es.foldl step s) = (es.filterMap written).getLast?.or (look s) := by
  induction es generalizing s with
  | nil => rfl
  | cons e es ih =>
    rw [List.foldl_cons, ih, h]
    cases he : written e with
    | none => rw [List.filterMap_cons_none he, Option.none_or]
    | some value =>
      rw [List.filterMap_cons_some he, List.getLast?_cons]
      cases (es.filterMap written).getLast? <;> rfl

/-- A list holds what it held, and behind it what was added, in order. -/
theorem foldl_eq_append_filterMap {σ ε α : Type} {step : σ → ε → σ} (look : σ → List α)
    (added : ε → Option α) (h : ∀ s e, look (step s e) = look s ++ (added e).toList) (s : σ)
    (es : List ε) : look (es.foldl step s) = look s ++ es.filterMap added := by
  induction es generalizing s with
  | nil => exact (List.append_nil (look s)).symm
  | cons e es ih =>
    rw [List.foldl_cons, ih, h, List.append_assoc]
    cases he : added e with
    | none => rw [List.filterMap_cons_none he, Option.toList_none, List.nil_append]
    | some a => rw [List.filterMap_cons_some he, Option.toList_some, List.singleton_append]

variable {ι : Type} {Carrier : ι → Type} {τ : ι}

/-! ### Assignments -/

/-- A name, and a value of some type that is put under it. -/
structure Assignment (Carrier : ι → Type) where
  /-- The name. -/
  name : String
  /-- The value, with its type. -/
  value : Dynamic Carrier

/-- The type and the name of a key. -/
def TypedKey.address (key : TypedKey τ) : ι × String := (τ, key.name)

namespace Assignment

/-- The type and the name under which the value is put. -/
def address (e : Assignment Carrier) : ι × String := (e.value.type, e.name)

/-- The assignment of a value to a key. -/
def of (key : TypedKey τ) (value : Carrier τ) : Assignment Carrier := ⟨key.name, ⟨τ, value⟩⟩

theorem of_inj {key : TypedKey τ} {value value' : Carrier τ} :
    of key value = of key value' ↔ value = value' := by
  simp [of]

/-- Every assignment is one to its own key. -/
theorem exists_eq_of {key : TypedKey τ} {e : Assignment Carrier} (h : e.address = key.address) :
    ∃ value, e = of key value := by
  obtain ⟨name, type, value⟩ := e
  obtain ⟨name'⟩ := key
  cases h
  exact ⟨value, rfl⟩

end Assignment

namespace TypedTable

variable [DecidableEq ι]

/-- Puts a value under a name. -/
def assign (t : TypedTable Carrier) (e : Assignment Carrier) : TypedTable Carrier :=
  t.put (⟨e.name⟩ : TypedKey e.value.type) e.value.value

/-- The table that a sequence of assignments makes. -/
def assignAll (es : List (Assignment Carrier)) : TypedTable Carrier := es.foldl assign empty

/-- What was last assigned to a key, as far as the table can tell. -/
def assignment? (t : TypedTable Carrier) (key : TypedKey τ) : Option (Assignment Carrier) :=
  (t.find? key).map (.of key)

theorem assignment?_assign (t : TypedTable Carrier) (e : Assignment Carrier) (key : TypedKey τ) :
    (t.assign e).assignment? key =
      (Option.guard (·.address = key.address) e).or (t.assignment? key) := by
  by_cases h : e.address = key.address
  · obtain ⟨value, rfl⟩ := Assignment.exists_eq_of h
    rw [Option.guard, if_pos (decide_eq_true h), Option.some_or, assignment?]
    exact congrArg (Option.map _) (find?_put_self t key value)
  · have hkey : ¬ (e.value.type = τ ∧ e.name = key.name) := fun heq =>
      h (Prod.ext heq.1 heq.2)
    rw [Option.guard, if_neg (by simpa using h), Option.none_or, assignment?, find?, assign,
      lookUp?_put, if_neg hkey]
    rfl

theorem assignment?_assignAll (es : List (Assignment Carrier)) (key : TypedKey τ) :
    (assignAll es).assignment? key = (es.filter (·.address = key.address)).getLast? := by
  have hlast := foldl_eq_getLast? (fun t : TypedTable Carrier => t.assignment? key) _
    (fun t e => assignment?_assign t e key) empty es
  have hnone : (empty : TypedTable Carrier).assignment? key = none := rfl
  rwa [List.filterMap_eq_filter, hnone, Option.or_none] at hlast

/-! ### The keys of a table -/

/-- All pairs of a type and a name under which there is a value. -/
def addresses (t : TypedTable Carrier) : List (ι × String) :=
  t.tables.entries.flatMap fun entry => entry.2.keys.map (entry.1, ·)

theorem length_addresses (t : TypedTable Carrier) : t.addresses.length = t.size := by
  have hkeys : ∀ table : Table String (Dynamic Carrier), table.keys.length = table.size :=
    fun table => List.length_map _
  simp only [addresses, size, List.length_flatMap, List.length_map, hkeys]
  rw [List.sum_eq_foldl, List.foldl_map]

theorem mem_addresses_iff {t : TypedTable Carrier} {name : String} :
    (τ, name) ∈ t.addresses ↔ t.contains (⟨name⟩ : TypedKey τ) = true := by
  simp only [addresses, List.mem_flatMap, List.mem_map, Prod.mk.injEq, Prod.exists]
  rw [contains, lookUp?, tableOf]
  constructor
  · rintro ⟨_, table, hentry, _, hname, rfl, rfl⟩
    rw [Table.find?_eq_some_iff.2 hentry, Option.getD_some]
    exact Table.isSome_find?.2 hname
  · intro h
    cases htable : t.tables.find? τ with
    | none =>
      rw [htable] at h
      cases h
    | some table =>
      rw [htable, Option.getD_some] at h
      exact ⟨τ, table, Table.find?_eq_some_iff.1 htable, name, Table.isSome_find?.1 h, rfl, rfl⟩

theorem nodup_addresses (t : TypedTable Carrier) : t.addresses.Nodup := by
  rw [addresses, List.nodup_flatMap]
  -- within a table the names differ, and between two tables the types do
  refine ⟨fun entry _ => ?_, ?_⟩
  · exact entry.2.nodup_keys.map fun _ _ h => (Prod.mk.inj h).2
  · refine (List.pairwise_map.1 t.tables.nodup_keys).imp fun hne => ?_
    refine List.disjoint_left.2 fun address hfirst hsecond => ?_
    obtain ⟨_, -, rfl⟩ := List.mem_map.1 hfirst
    obtain ⟨_, -, h⟩ := List.mem_map.1 hsecond
    exact hne (Prod.mk.inj h).1.symm

/-! ### What a table says -/

/-- A table says of each key what the last of some assignments to it says. -/
structure Mirrors (t : TypedTable Carrier) (es : List (Assignment Carrier)) : Prop where
  /-- A key has the value last put under its type and name, whatever was put under the name with
  other types. -/
  find?_eq_some_iff : ∀ {τ} (key : TypedKey τ) value, t.find? key = some value ↔
    (es.filter (·.address = key.address)).getLast? = some (.of key value)
  /-- A key has no value if none was put under its type and name. -/
  find?_eq_none_iff : ∀ {τ} (key : TypedKey τ), t.find? key = none ↔
    ∀ e ∈ es, e.address ≠ key.address
  /-- What is stored under a key is of its type. -/
  type_eq : ∀ {τ} (key : TypedKey τ) d, t.lookUp? key = some d → d.type = τ
  /-- There is a value under a key exactly if the key has one. -/
  contains_iff : ∀ {τ} (key : TypedKey τ), t.contains key = true ↔ ∃ value, t.find? key = some value
  /-- A key that must have a value is granted the one that it has. -/
  require_eq_ok_iff : ∀ {τ} (key : TypedKey τ) value,
    t.require key = .ok value ↔ t.find? key = some value
  /-- A key that must have a value and has none is refused with its own name and type. -/
  require_eq_error_iff : ∀ {τ} (key : TypedKey τ) missing,
    t.require key = .error missing ↔ t.find? key = none ∧ missing = ⟨key.name, τ⟩
  /-- The size is the number of different pairs of a type and a name. -/
  size_eq : t.size = (es.map Assignment.address).toFinset.card
  /-- The table is empty exactly if its size is zero. -/
  isEmpty_iff : t.isEmpty = true ↔ t.size = 0

theorem find?_assignAll_eq_some_iff {es : List (Assignment Carrier)} {key : TypedKey τ}
    {value : Carrier τ} : (assignAll es).find? key = some value ↔
      (es.filter (·.address = key.address)).getLast? = some (.of key value) := by
  rw [← assignment?_assignAll, assignment?, Option.map_eq_some_iff]
  simp only [Assignment.of_inj, exists_eq_right]

theorem find?_assignAll_eq_none_iff {es : List (Assignment Carrier)} {key : TypedKey τ} :
    (assignAll es).find? key = none ↔ ∀ e ∈ es, e.address ≠ key.address := by
  rw [← Option.map_eq_none_iff (f := Assignment.of key), ← assignment?, assignment?_assignAll,
    List.getLast?_eq_none_iff, List.filter_eq_nil_iff]
  simp only [decide_eq_true_eq, ne_eq]

theorem size_assignAll (es : List (Assignment Carrier)) :
    (assignAll es).size = (es.map Assignment.address).toFinset.card := by
  have haddresses : (assignAll es).addresses.toFinset = (es.map Assignment.address).toFinset := by
    ext ⟨τ, name⟩
    rw [List.mem_toFinset, List.mem_toFinset, mem_addresses_iff, ← isSome_find?, List.mem_map,
      Option.isSome_iff_ne_none, ne_eq, find?_assignAll_eq_none_iff]
    simp [TypedKey.address]
  rw [← length_addresses, ← haddresses, List.toFinset_card_of_nodup (nodup_addresses _)]

/-- **A table mirrors the assignments that made it.** -/
theorem mirrors_assignAll (es : List (Assignment Carrier)) : (assignAll es).Mirrors es where
  find?_eq_some_iff _ _ := find?_assignAll_eq_some_iff
  find?_eq_none_iff _ := find?_assignAll_eq_none_iff
  type_eq _ _ h := type_eq_of_find?_tableOf h
  contains_iff key := by rw [← isSome_find?, Option.isSome_iff_exists]
  require_eq_ok_iff key value := by
    unfold require
    cases (assignAll es).find? key <;> simp
  require_eq_error_iff key missing := by
    unfold require
    cases (assignAll es).find? key <;> simp [eq_comm]
  size_eq := size_assignAll es
  isEmpty_iff := beq_iff_eq

/-- Keys of one name and different types do not see each other. -/
example :
    let t : Context := assignAll [.of (⟨"test"⟩ : Key .int) 5, .of (⟨"test"⟩ : Key .string) "abc",
      .of (⟨"test"⟩ : Key .int) 7]
    t.find? (⟨"test"⟩ : Key .int) = some 7 ∧ t.find? (⟨"test"⟩ : Key .string) = some "abc" ∧
      t.size = 2 := by
  decide

end TypedTable

end CommandGrammar
