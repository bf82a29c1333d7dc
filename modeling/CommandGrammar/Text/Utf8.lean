/-!
# Text measured in bytes

Positions in a command line count the bytes of its UTF-8 form, while the text itself is a list of
characters. This module measures a text in bytes (`byteLength`) and cuts it at a byte budget
(`takeBytes`, `dropBytes`). A cut never splits a character: the front is the longest one that the
budget pays for.

Main statements: a cut loses nothing (`takeBytes_append_dropBytes`), and the front fits in its
budget (`byteLength_takeBytes_le`).
-/

namespace CommandGrammar

/-- The number of bytes that UTF-8 spends on a text. -/
def byteLength : List Char → Nat
  | [] => 0
  | c :: s => c.utf8Size + byteLength s

@[simp] theorem byteLength_nil : byteLength [] = 0 := rfl

@[simp] theorem byteLength_cons (c : Char) (s : List Char) :
    byteLength (c :: s) = c.utf8Size + byteLength s := rfl

@[simp] theorem byteLength_append (s t : List Char) :
    byteLength (s ++ t) = byteLength s + byteLength t := by
  induction s with
  | nil => simp
  | cons c s ih => simp [ih, Nat.add_assoc]

/-- Every character takes at least one byte. -/
theorem length_le_byteLength (s : List Char) : s.length ≤ byteLength s := by
  induction s with
  | nil => simp
  | cons c s ih =>
    have := Char.utf8Size_pos c
    simp only [List.length_cons, byteLength_cons]
    omega

/-- The longest front of a text whose bytes fit in `budget`. -/
def takeBytes (budget : Nat) : List Char → List Char
  | [] => []
  | c :: s => if c.utf8Size ≤ budget then c :: takeBytes (budget - c.utf8Size) s else []

/-- What follows the longest front whose bytes fit in `budget`. -/
def dropBytes (budget : Nat) : List Char → List Char
  | [] => []
  | c :: s => if c.utf8Size ≤ budget then dropBytes (budget - c.utf8Size) s else c :: s

/-- A cut loses nothing. -/
@[simp] theorem takeBytes_append_dropBytes (budget : Nat) (s : List Char) :
    takeBytes budget s ++ dropBytes budget s = s := by
  induction s generalizing budget with
  | nil => rfl
  | cons c s ih =>
    by_cases h : c.utf8Size ≤ budget
    · simp [takeBytes, dropBytes, h, ih]
    · simp [takeBytes, dropBytes, h]

/-- The front of a cut fits in its budget. -/
theorem byteLength_takeBytes_le (budget : Nat) (s : List Char) :
    byteLength (takeBytes budget s) ≤ budget := by
  induction s generalizing budget with
  | nil => simp [takeBytes]
  | cons c s ih =>
    by_cases h : c.utf8Size ≤ budget
    · have := ih (budget - c.utf8Size)
      simp only [takeBytes, h, ↓reduceIte, byteLength_cons]
      omega
    · simp [takeBytes, h]

/-- A budget of exactly the bytes of a front cuts right behind it. -/
theorem takeBytes_byteLength_append (s t : List Char) :
    takeBytes (byteLength s) (s ++ t) = s := by
  induction s with
  | nil =>
    cases t with
    | nil => rfl
    | cons c t =>
      have := Char.utf8Size_pos c
      have h : ¬ c.utf8Size ≤ 0 := by omega
      simp [takeBytes, h]
  | cons c s ih => simp [takeBytes, ih]

/-- What a cut at exactly the bytes of a front leaves is the rest. -/
theorem dropBytes_byteLength_append (s t : List Char) :
    dropBytes (byteLength s) (s ++ t) = t := by
  have h := takeBytes_append_dropBytes (byteLength s) (s ++ t)
  rw [takeBytes_byteLength_append] at h
  exact List.append_cancel_left h

end CommandGrammar
