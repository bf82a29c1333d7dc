import CommandGrammar.Cursor
import Mathlib.Data.List.TakeWhile
import Mathlib.Order.Bounds.Defs
import Mathlib.Order.Monotone.Defs

/-!
# Boundaries of a line

An offset of a line is a boundary if it does not fall inside a character, in the sense of Lean's own
`String.Pos.Raw.IsValid`: the boundaries are the byte lengths of the fronts (`isBoundary_iff`). A
cursor stands at a boundary (`Cursor.isBoundary_index`).

Main statement: a cursor that is sent to an offset goes to the last boundary that is not behind it
(`Cursor.isGreatest_index_seek`).
-/

namespace CommandGrammar

/-! ### Cuts between characters -/

theorem byteLength_eq_utf8ByteSize (s : List Char) :
    byteLength s = (String.ofList s).utf8ByteSize := by
  induction s with
  | nil => rfl
  | cons c s ih => simp [String.ofList_cons, ih]

theorem byteLength_toList (line : String) : byteLength line.toList = line.utf8ByteSize := by
  rw [byteLength_eq_utf8ByteSize, String.ofList_toList]

/-- A text is at least as long as its fronts. -/
theorem byteLength_le_of_front {s t : List Char} (h : s <+: t) : byteLength s ≤ byteLength t := by
  obtain ⟨_, rfl⟩ := h
  rw [byteLength_append]
  exact Nat.le_add_right _ _

/-- An offset of a line that does not fall inside a character. -/
def IsBoundary (line : String) (offset : Nat) : Prop := (String.Pos.Raw.mk offset).IsValid line

/-- The boundaries are the lengths of the fronts. -/
theorem isBoundary_iff {line : String} {offset : Nat} :
    IsBoundary line offset ↔ ∃ front, front <+: line.toList ∧ byteLength front = offset := by
  rw [IsBoundary, String.Pos.Raw.isValid_iff_exists_append]
  constructor
  · rintro ⟨front, back, rfl, hoffset⟩
    refine ⟨front.toList, ⟨back.toList, String.toList_append.symm⟩, ?_⟩
    rw [byteLength_toList]
    exact (congrArg String.Pos.Raw.byteIdx hoffset).symm
  · rintro ⟨front, ⟨back, hline⟩, rfl⟩
    refine ⟨.ofList front, .ofList back, ?_, ?_⟩
    · rw [← String.ofList_append, hline, String.ofList_toList]
    · rw [byteLength_eq_utf8ByteSize]
      rfl

theorem IsBoundary.le {line : String} {offset : Nat} (h : IsBoundary line offset) :
    offset ≤ line.utf8ByteSize := by
  obtain ⟨front, hfront, rfl⟩ := isBoundary_iff.1 h
  exact byteLength_toList line ▸ byteLength_le_of_front hfront

theorem takeBytes_byteLength_add (s t : List Char) (count : Nat) :
    takeBytes (byteLength s + count) (s ++ t) = s ++ takeBytes count t := by
  induction s with
  | nil => simp
  | cons c s ih => simp [takeBytes, Nat.add_assoc, ih]

/-- A cut takes every front that fits in its budget. -/
theorem front_takeBytes {s : List Char} {budget : Nat} {front : List Char} (h : front <+: s)
    (hbudget : byteLength front ≤ budget) : front <+: takeBytes budget s := by
  induction s generalizing budget front with
  | nil => exact h
  | cons c s ih =>
    cases front with
    | nil => exact List.nil_prefix
    | cons c' front =>
      -- the front begins with the same character, so the budget pays for that
      obtain ⟨rfl, hfront⟩ := List.cons_prefix_cons.1 h
      rw [byteLength_cons] at hbudget
      rw [takeBytes, if_pos (by omega), List.cons_prefix_cons]
      exact ⟨rfl, ih hfront (by omega)⟩

/-- A cut is made at the last boundary that its budget allows. -/
theorem isGreatest_byteLength_takeBytes (line : String) (target : Nat) :
    IsGreatest {offset | IsBoundary line offset ∧ offset ≤ min target line.utf8ByteSize}
      (byteLength (takeBytes target line.toList)) := by
  have hboundary : IsBoundary line (byteLength (takeBytes target line.toList)) :=
    isBoundary_iff.2 ⟨_, ⟨_, takeBytes_append_dropBytes _ _⟩, rfl⟩
  refine ⟨⟨hboundary, Nat.le_min.2 ⟨byteLength_takeBytes_le _ _, hboundary.le⟩⟩, ?_⟩
  rintro offset ⟨hoffset, hle⟩
  obtain ⟨front, hfront, rfl⟩ := isBoundary_iff.1 hoffset
  exact byteLength_le_of_front (front_takeBytes hfront (Nat.le_min.1 hle).1)

/-! ### The longest front -/

/-- The longest front of a text whose characters all satisfy a predicate. -/
structure IsLongestFront (p : Char → Bool) (text front : List Char) : Prop where
  /-- It is a front. -/
  isFront : front <+: text
  /-- All its characters satisfy the predicate. -/
  all : ∀ c ∈ front, p c = true
  /-- Every such front is a front of it. -/
  longest : ∀ other, other <+: text → (∀ c ∈ other, p c = true) → other <+: front

theorem isLongestFront_takeWhile (p : Char → Bool) (text : List Char) :
    IsLongestFront p text (text.takeWhile p) where
  isFront := List.takeWhile_prefix p
  all _ := List.mem_takeWhile_imp
  longest other hother hall := by
    obtain ⟨back, rfl⟩ := hother
    rw [List.takeWhile_append_of_pos hall]
    exact List.prefix_append _ _

namespace Cursor

/-! ### Places of a line -/

section

variable {line : String} {c : Cursor}

theorem isBoundary_index (h : c.line = line.toList) : IsBoundary line c.index :=
  isBoundary_iff.2 ⟨c.consumed, ⟨c.rest, h⟩, rfl⟩

theorem isGreatest_index_seek (h : c.line = line.toList) (target : Nat) :
    IsGreatest {offset | IsBoundary line offset ∧ offset ≤ min target line.utf8ByteSize}
      (c.seek target).index := by
  rw [seek, h]
  exact isGreatest_byteLength_takeBytes line target

/-- Going to a greater offset does not lead to a place further in front. -/
theorem monotone_index_seek (h : c.line = line.toList) :
    Monotone fun target => (c.seek target).index := by
  intro target target' hle
  obtain ⟨hboundary, hfits⟩ := (isGreatest_index_seek h target).1
  have hfits' : (c.seek target).index ≤ min target' line.utf8ByteSize := by omega
  exact (isGreatest_index_seek h target').2 ⟨hboundary, hfits'⟩

end

/-- Going to where one is leads nowhere else. -/
theorem seek_index (c : Cursor) : c.seek c.index = c := by
  rw [seek, index, line, takeBytes_byteLength_append, dropBytes_byteLength_append]

theorem seek_congr {c d : Cursor} (h : c.line = d.line) (target : Nat) :
    c.seek target = d.seek target := by
  rw [seek, seek, h]

/-- Skipping some bytes is going that much further. -/
theorem skipBytes_eq_seek (c : Cursor) (count : Nat) :
    c.skipBytes count = c.seek (c.index + count) := by
  have htake := takeBytes_byteLength_add c.consumed c.rest count
  have hcut := takeBytes_append_dropBytes (byteLength c.consumed + count) (c.consumed ++ c.rest)
  have hdrop : dropBytes (byteLength c.consumed + count) (c.consumed ++ c.rest) =
      dropBytes count c.rest := by
    rw [htake, List.append_assoc, List.append_cancel_left_eq] at hcut
    exact List.append_cancel_left (hcut.trans (takeBytes_append_dropBytes count c.rest).symm)
  rw [skipBytes, seek, index, line, htake, hdrop]

end Cursor

end CommandGrammar
