import CommandGrammar.Proofs.Table.LastWrite
import CommandGrammar.Proofs.Text.ByteOrder
import CommandGrammar.Trail
import Mathlib.Data.List.Dedup
import Mathlib.Order.Bounds.Defs

/-!
# What a trail says

A trail is made by recording literals, arguments and flags one after the other. This module says what
it and the bindings in it say afterwards (`Trail.Mirrors`). Arguments are told apart by their
identities alone: the last recording under an identity counts, and no recording under another one,
even if it is that of an argument of the same name or of one with values of another type.

Main statement: every sequence of recordings is mirrored in the trail that it makes
(`Trail.mirrors_noteAll`). The names of the arguments do not depend on the order in which the table
has its entries, since only one list of them is in order (`Bindings.argumentNames_eq_iff`).
-/

namespace CommandGrammar

variable {ι : Type} {Carrier : ι → Type} {type : ArgumentKey → ι}

/-! ### Recordings -/

/-- What is recorded along a path. The values of an argument are all of the type that goes with its
identity. -/
inductive Recording (Carrier : ι → Type) (type : ArgumentKey → ι) where
  /-- A literal. -/
  | literal (span : Span)
  /-- The value of an argument. -/
  | argument (a : Argument) (span : Span) (value : Carrier (type a.key))
  /-- A flag. -/
  | flag (span : Span) (flag : Char)

namespace Recording

/-- The span, if it is that of a literal. -/
def literal? : Recording Carrier type → Option Span
  | literal span => some span
  | _ => none

/-- The identity, if it is that of an argument. -/
def key? : Recording Carrier type → Option ArgumentKey
  | argument a _ _ => some a.key
  | _ => none

/-- The binding of an argument with an identity, if that is what is recorded. -/
def binding? (key : ArgumentKey) : Recording Carrier type → Option (Binding (Dynamic Carrier))
  | argument a span value => if a.key = key then some ⟨span, type a.key, value⟩ else none
  | _ => none

/-- The flag, if it is one. -/
def flagHit? : Recording Carrier type → Option FlagHit
  | flag span c => some ⟨span, c⟩
  | _ => none

/-- The binding last recorded under an identity. -/
def last? (rs : List (Recording Carrier type)) (key : ArgumentKey) :
    Option (Binding (Dynamic Carrier)) :=
  (rs.filterMap (binding? key)).getLast?

variable {r : Recording Carrier type} {rs : List (Recording Carrier type)} {key : ArgumentKey}

theorem isSome_binding?_iff : (r.binding? key).isSome = true ↔ r.key? = some key := by
  cases r with
  | argument a span value => simp [binding?, key?]
  | _ => simp [binding?, key?]

/-- A value recorded under an identity is of the type that goes with it. -/
theorem type_eq_of_binding? {b : Binding (Dynamic Carrier)} (h : r.binding? key = some b) :
    b.value.type = type key := by
  cases r with
  | argument a span value =>
    rw [binding?] at h
    split at h
    · rename_i hkey
      obtain rfl := Option.some.inj h
      exact congrArg type hkey
    · cases h
  | _ => cases h

theorem literal?_eq_some_iff {span : Span} : r.literal? = some span ↔ r = .literal span := by
  cases r <;> simp [literal?]

theorem flagHit?_eq_some_iff {hit : FlagHit} :
    r.flagHit? = some hit ↔ r = .flag hit.span hit.flag := by
  obtain ⟨span, flag⟩ := hit
  cases r <;> simp [flagHit?]

theorem type_eq_of_last? {b : Binding (Dynamic Carrier)} (h : last? rs key = some b) :
    b.value.type = type key := by
  obtain ⟨r, -, hr⟩ := List.mem_filterMap.1 (List.mem_of_getLast? h)
  exact type_eq_of_binding? hr

theorem isSome_last?_iff : (last? rs key).isSome = true ↔ key ∈ rs.filterMap key? := by
  rw [last?, List.getLast?_isSome, ne_eq, List.filterMap_eq_nil_iff, List.mem_filterMap]
  simp only [← isSome_binding?_iff, not_forall, ← ne_eq, ← Option.isSome_iff_ne_none, exists_prop]

end Recording

namespace Trail

/-- Records one thing. -/
def note (t : Trail (Dynamic Carrier)) : Recording Carrier type → Trail (Dynamic Carrier)
  | .literal span => t.addLiteral span
  | .argument a span value => t.addArgument a span ⟨type a.key, value⟩
  | .flag span flag => t.addFlag span flag

/-- Records one thing after the other. -/
def noteAll (t : Trail (Dynamic Carrier)) (rs : List (Recording Carrier type)) :
    Trail (Dynamic Carrier) :=
  rs.foldl note t

variable (t : Trail (Dynamic Carrier)) (rs : List (Recording Carrier type))

/-! ### Arguments -/

theorem find?_note (r : Recording Carrier type) (key : ArgumentKey) :
    (t.note r).arguments.find? key = (r.binding? key).or (t.arguments.find? key) := by
  cases r with
  | argument a span value =>
    rw [note, addArgument, Table.find?_insert, Recording.binding?]
    split <;> rfl
  | _ => rfl

theorem find?_noteAll (key : ArgumentKey) : (t.noteAll rs).arguments.find? key =
    (Recording.last? rs key).or (t.arguments.find? key) :=
  foldl_eq_getLast? (fun t : Trail (Dynamic Carrier) => t.arguments.find? key) _
    (fun t r => t.find?_note r key) t rs

/-! ### Flags and literals -/

theorem noteAll_cons (r : Recording Carrier type) : t.noteAll (r :: rs) = (t.note r).noteAll rs := rfl

theorem flags_note (r : Recording Carrier type) : (t.note r).flags = t.flags ++ r.flagHit?.toList := by
  cases r with
  | flag span c => rfl
  | _ => exact (List.append_nil t.flags).symm

theorem flags_noteAll : (t.noteAll rs).flags = t.flags ++ rs.filterMap Recording.flagHit? :=
  foldl_eq_append_filterMap (fun t : Trail (Dynamic Carrier) => t.flags) _ flags_note t rs

theorem literals_noteAll :
    (t.noteAll rs).literals = (rs.filterMap Recording.literal?).foldl Span.hull t.literals := by
  induction rs generalizing t with
  | nil => rfl
  | cons r rs ih =>
    rw [noteAll_cons, ih]
    cases r <;> rfl

theorem context_noteAll : (t.noteAll rs).context = t.context := by
  induction rs generalizing t with
  | nil => rfl
  | cons r rs ih =>
    rw [noteAll_cons, ih]
    cases r <;> rfl

end Trail

section Extremes

variable {α : Type} [LinearOrder α]

theorem isLeast_foldl_min (a : α) (xs : List α) : IsLeast {x | x = a ∨ x ∈ xs} (xs.foldl min a) := by
  induction xs generalizing a with
  | nil => simp [IsLeast, lowerBounds]
  | cons b xs ih =>
    obtain ⟨hmem, hleast⟩ := ih (min a b)
    -- the least of all is also below the least of the first two
    have hfirst : xs.foldl min (min a b) ≤ min a b := hleast (.inl rfl)
    rw [List.foldl_cons]
    refine ⟨?_, ?_⟩
    · rcases hmem with hmin | hmem
      · rcases min_choice a b with h | h
        · exact .inl (hmin.trans h)
        · exact .inr (List.mem_cons.2 (.inl (hmin.trans h)))
      · exact .inr (List.mem_cons_of_mem b hmem)
    · rintro x (rfl | hx)
      · exact hfirst.trans (min_le_left _ _)
      · rcases List.mem_cons.1 hx with rfl | hx
        · exact hfirst.trans (min_le_right _ _)
        · exact hleast (.inr hx)

theorem isGreatest_foldl_max (a : α) (xs : List α) :
    IsGreatest {x | x = a ∨ x ∈ xs} (xs.foldl max a) :=
  isLeast_foldl_min (OrderDual.toDual a) xs

end Extremes

namespace Span

variable (a : Span) (spans : List Span)

theorem start_foldl_hull : (spans.foldl hull a).start = (spans.map start).foldl min a.start := by
  rw [List.foldl_map]
  exact (List.foldl_hom start fun _ _ => rfl).symm

theorem stop_foldl_hull : (spans.foldl hull a).stop = (spans.map stop).foldl max a.stop := by
  rw [List.foldl_map]
  exact (List.foldl_hom stop fun _ _ => rfl).symm

end Span

/-! ### Names -/

namespace Bindings

/-- The names are those of the keys, and they are in the order of their bytes; no other list is. -/
theorem argumentNames_eq_iff {ν : Type} {b : Bindings ν} {names : List String} : b.argumentNames = names ↔
    names.Perm (b.arguments.keys.map ArgumentKey.name) ∧
      names.Pairwise fun x y => bytesOf x ≤ bytesOf y := by
  have hle : ∀ x y : String, bytesOf x ≤ bytesOf y ↔ x ≤ y := fun x y => by
    rw [← List.not_lt, ← String.not_lt, bytesOf_lt_bytesOf_iff]
  simp only [hle]
  have hperm : b.argumentNames.Perm (b.arguments.keys.map ArgumentKey.name) :=
    List.mergeSort_perm _ _
  have hsorted : b.argumentNames.Pairwise (· ≤ ·) := by
    refine (List.pairwise_mergeSort ?_ ?_ _).imp fun h => of_decide_eq_true h
    · intro x y z hxy hyz
      exact decide_eq_true ((of_decide_eq_true hxy).trans (of_decide_eq_true hyz))
    · intro x y
      simpa using le_total x y
  constructor
  · rintro rfl
    exact ⟨hperm, hsorted⟩
  · rintro ⟨hperm', hsorted'⟩
    exact List.Perm.eq_of_pairwise (fun _ _ _ _ => le_antisymm) hsorted hsorted'
      (hperm.trans hperm'.symm)

end Bindings

/-! ### What a trail says -/

namespace Trail

/-- A trail that begins at an offset says what some recordings say. -/
structure Mirrors [DecidableEq ι] (t : Trail (Dynamic Carrier)) (context : Context) (offset : Nat)
    (rs : List (Recording Carrier type)) : Prop where
  /-- It is for the context. -/
  context_eq : t.context = context
  /-- An argument has the value last recorded under its identity. -/
  findAs?_eq_some_iff : ∀ a value, t.findAs? (type a.key) a = some value ↔
    (Recording.last? rs a.key).map Binding.value = some ⟨type a.key, value⟩
  /-- An argument has no value if none was recorded under its identity. -/
  findAs?_eq_none_iff : ∀ a, t.findAs? (type a.key) a = none ↔ ∀ r ∈ rs, r.key? ≠ some a.key
  /-- The value stands where it was last recorded to stand. -/
  span?_eq : ∀ a, t.span? a = (Recording.last? rs a.key).map Binding.span
  /-- An argument counts as given exactly if a value was recorded under its identity. -/
  hasArgument_iff : ∀ a, t.hasArgument a = true ↔ ∃ r ∈ rs, r.key? = some a.key
  /-- The names are those of the identities under which values were recorded, each of which counts
  once, in the order of their bytes. -/
  argumentNames_eq_iff : ∀ names, t.argumentNames = names ↔
    names.Perm ((rs.filterMap Recording.key?).dedup.map ArgumentKey.name) ∧
      names.Pairwise fun x y => bytesOf x ≤ bytesOf y
  /-- The flags are those recorded, in their order. -/
  flags_eq : t.flags = rs.filterMap Recording.flagHit?
  /-- A flag is given exactly if it was recorded somewhere. -/
  hasFlag_iff : ∀ c, t.hasFlag c = true ↔ ∃ span, .flag span c ∈ rs
  /-- The span of the literals begins at the least of the offset and all their beginnings. -/
  isLeast_start : IsLeast {n | n = offset ∨ ∃ span, .literal span ∈ rs ∧ span.start = n}
    t.literals.start
  /-- It ends at the greatest of the offset and all their ends. -/
  isGreatest_stop : IsGreatest {n | n = offset ∨ ∃ span, .literal span ∈ rs ∧ span.stop = n}
    t.literals.stop

variable (context : Context) (c : Cursor) (rs : List (Recording Carrier type))

theorem find?_noteAll_start (key : ArgumentKey) :
    ((start context c).noteAll rs).arguments.find? key = Recording.last? rs key := by
  have hnone : (start context c : Trail (Dynamic Carrier)).arguments.find? key = none := rfl
  rw [find?_noteAll, hnone, Option.or_none]

theorem isSome_find?_noteAll_start_iff (a : Argument) :
    (((start context c).noteAll rs).find? a).isSome = true ↔ ∃ r ∈ rs, r.key? = some a.key := by
  rw [Bindings.find?, Option.isSome_map, find?_noteAll_start, Recording.isSome_last?_iff,
    List.mem_filterMap]

/-- What was recorded for an argument is of the type that goes with it. -/
theorem findAs?_noteAll_start [DecidableEq ι] (a : Argument) :
    (((start context c).noteAll rs).findAs? (type a.key) a).map (Dynamic.mk (type a.key)) =
      ((start context c).noteAll rs).find? a := by
  rw [Bindings.findAs?, Bindings.find?, find?_noteAll_start]
  cases h : Recording.last? rs a.key with
  | none => rfl
  | some b =>
    obtain ⟨span, τ, value⟩ := b
    obtain rfl : τ = type a.key := Recording.type_eq_of_last? h
    simp

/-- Which order the table has its entries in is left open. -/
theorem keys_noteAll_start_perm :
    ((start context c).noteAll rs).arguments.keys.Perm (rs.filterMap Recording.key?).dedup := by
  refine (List.perm_ext_iff_of_nodup (Table.nodup_keys _) (List.nodup_dedup _)).2 fun key => ?_
  rw [List.mem_dedup, ← Recording.isSome_last?_iff, ← find?_noteAll_start context c]
  exact Table.isSome_find?.symm

theorem literals_noteAll_start : ((start context c).noteAll rs).literals =
    (rs.filterMap Recording.literal?).foldl Span.hull (.point c.index) :=
  literals_noteAll _ rs

theorem mem_map_literal?_iff {f : Span → Nat} {n : Nat} :
    n ∈ (rs.filterMap Recording.literal?).map f ↔ ∃ span, .literal span ∈ rs ∧ f span = n := by
  simp only [List.mem_map, List.mem_filterMap, Recording.literal?_eq_some_iff, exists_eq_right]

/-- **A trail mirrors what was recorded.** -/
theorem mirrors_noteAll [DecidableEq ι] :
    ((start context c).noteAll rs).Mirrors context c.index rs where
  context_eq := context_noteAll _ _
  findAs?_eq_some_iff a value := by
    rw [← find?_noteAll_start context c, ← Bindings.find?, ← findAs?_noteAll_start,
      Option.map_eq_some_iff]
    simp
  findAs?_eq_none_iff a := by
    rw [← Option.map_eq_none_iff (f := Dynamic.mk (type a.key)), findAs?_noteAll_start,
      ← Option.not_isSome_iff_eq_none, isSome_find?_noteAll_start_iff]
    simp
  span?_eq a := by rw [Bindings.span?, find?_noteAll_start]
  hasArgument_iff a := isSome_find?_noteAll_start_iff context c rs a
  argumentNames_eq_iff names := by
    have hnames := (keys_noteAll_start_perm context c rs).map ArgumentKey.name
    rw [Bindings.argumentNames_eq_iff]
    exact and_congr_left fun _ => ⟨fun h => h.trans hnames, fun h => h.trans hnames.symm⟩
  flags_eq := flags_noteAll _ _
  hasFlag_iff flag := by
    have hflags : ((start context c).noteAll rs).flags = rs.filterMap Recording.flagHit? :=
      flags_noteAll _ _
    rw [Bindings.hasFlag, hflags, List.any_eq_true]
    simp only [List.mem_filterMap, Recording.flagHit?_eq_some_iff, decide_eq_true_eq]
    constructor
    · rintro ⟨hit, ⟨_, hmem, rfl⟩, rfl⟩
      exact ⟨hit.span, hmem⟩
    · rintro ⟨span, hmem⟩
      exact ⟨⟨span, flag⟩, ⟨_, hmem, rfl⟩, rfl⟩
  isLeast_start := by
    rw [literals_noteAll_start, Span.start_foldl_hull]
    simp only [← mem_map_literal?_iff]
    exact isLeast_foldl_min _ _
  isGreatest_stop := by
    rw [literals_noteAll_start, Span.stop_foldl_hull]
    simp only [← mem_map_literal?_iff]
    exact isGreatest_foldl_max _ _

end Trail

end CommandGrammar
