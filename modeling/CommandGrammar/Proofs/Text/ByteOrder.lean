import Mathlib.Data.String.Basic

/-!
# The order of texts

Texts are ordered by their first different characters. The same order is that of their UTF-8 bytes
(`bytesOf_lt_bytesOf_iff`): of two different characters the greater one has the greater byte where
their bytes first differ, and neither has its bytes at the front of those of the other one
(`forks_of_lt`).
-/

namespace CommandGrammar

/-- The bytes of a text in UTF-8. -/
def bytesOf (s : String) : List UInt8 := s.toByteArray.data.toList

theorem bytesOf_eq (s : String) : bytesOf s = s.toList.flatMap String.utf8EncodeChar := by
  conv_lhs => rw [← String.ofList_toList (s := s)]
  rw [bytesOf, String.toByteArray_ofList, List.utf8Encode]
  simp

/-- Where two texts go on differently, with a byte less than the other one. -/
def Forks (s t : List UInt8) : Prop :=
  ∃ front x y back back', s = front ++ x :: back ∧ t = front ++ y :: back' ∧ x < y

theorem Forks.cons {s t : List UInt8} (h : Forks s t) (x : UInt8) : Forks (x :: s) (x :: t) := by
  obtain ⟨front, y, z, back, back', rfl, rfl, hlt⟩ := h
  exact ⟨x :: front, y, z, back, back', rfl, rfl, hlt⟩

theorem forks_of_head_lt {x y : UInt8} (h : x < y) (s t : List UInt8) : Forks (x :: s) (y :: t) :=
  ⟨[], x, y, s, t, rfl, rfl, h⟩

/-- A text that forks off below another one is less, whatever follows. -/
theorem Forks.append_lt {s t : List UInt8} (h : Forks s t) (u v : List UInt8) :
    s ++ u < t ++ v := by
  obtain ⟨front, x, y, back, back', rfl, rfl, hlt⟩ := h
  induction front with
  | nil => exact List.Lex.rel hlt
  | cons z front ih => exact List.Lex.cons ih

theorem ofNat_lt_ofNat {m n : Nat} (h : m < n) (hn : n < 256) : UInt8.ofNat m < UInt8.ofNat n := by
  rw [UInt8.lt_iff_toNat_lt, UInt8.toNat_ofNat', UInt8.toNat_ofNat']
  omega

/-- Texts whose first bytes are in order fork if they do so behind equal first bytes. -/
theorem forks_cons_of_le {m n : Nat} {s t : List UInt8} (h : m ≤ n) (hn : n < 256)
    (heq : m = n → Forks s t) : Forks (UInt8.ofNat m :: s) (UInt8.ofNat n :: t) := by
  rcases h.lt_or_eq with hlt | rfl
  · exact forks_of_head_lt (ofNat_lt_ofNat hlt hn) s t
  · exact (heq rfl).cons _

/-- **The bytes of a character fork off below those of a greater one.** A longer form has the
greater first byte, and in two forms of one length the digits of the code points are compared from
the first one on. -/
theorem forks_of_lt {c d : Char} (h : c < d) :
    Forks (String.utf8EncodeChar c) (String.utf8EncodeChar d) := by
  have hlt : c.val.toNat < d.val.toNat := h
  have hd : d.val.toNat < 0x110000 := by
    have hvalid := d.valid
    unfold UInt32.isValidChar Nat.isValidChar at hvalid
    omega
  simp only [String.utf8EncodeChar]
  generalize c.val.toNat = m at *
  generalize d.val.toNat = n at *
  by_cases h₁ : n ≤ 127
  · rw [if_pos (by omega), if_pos h₁]
    exact forks_of_head_lt (ofNat_lt_ofNat hlt (by omega)) _ _
  rw [if_neg h₁]
  by_cases h₂ : n ≤ 2047
  · rw [if_pos h₂]
    split
    · exact forks_of_head_lt (ofNat_lt_ofNat (by omega) (by omega)) _ _
    rw [if_pos (by omega)]
    refine forks_cons_of_le (by omega) (by omega) fun hhead => ?_
    exact forks_of_head_lt (ofNat_lt_ofNat (by omega) (by omega)) _ _
  rw [if_neg h₂]
  by_cases h₃ : n ≤ 65535
  · rw [if_pos h₃]
    split
    · exact forks_of_head_lt (ofNat_lt_ofNat (by omega) (by omega)) _ _
    split
    · exact forks_of_head_lt (ofNat_lt_ofNat (by omega) (by omega)) _ _
    rw [if_pos (by omega)]
    refine forks_cons_of_le (by omega) (by omega) fun hhead => ?_
    refine forks_cons_of_le (by omega) (by omega) fun hmiddle => ?_
    exact forks_of_head_lt (ofNat_lt_ofNat (by omega) (by omega)) _ _
  rw [if_neg h₃]
  split
  · exact forks_of_head_lt (ofNat_lt_ofNat (by omega) (by omega)) _ _
  split
  · exact forks_of_head_lt (ofNat_lt_ofNat (by omega) (by omega)) _ _
  split
  · exact forks_of_head_lt (ofNat_lt_ofNat (by omega) (by omega)) _ _
  refine forks_cons_of_le (by omega) (by omega) fun hhead => ?_
  refine forks_cons_of_le (by omega) (by omega) fun hsecond => ?_
  refine forks_cons_of_le (by omega) (by omega) fun hthird => ?_
  exact forks_of_head_lt (ofNat_lt_ofNat (by omega) (by omega)) _ _

theorem flatMap_lt_flatMap {s t : List Char} (h : s < t) :
    s.flatMap String.utf8EncodeChar < t.flatMap String.utf8EncodeChar := by
  induction h with
  | @nil d t =>
    obtain ⟨x, back, hd⟩ :=
      List.exists_cons_of_ne_nil (String.utf8EncodeChar_ne_nil (c := d))
    rw [List.flatMap_nil, List.flatMap_cons, hd]
    exact List.Lex.nil
  | rel hlt =>
    rw [List.flatMap_cons, List.flatMap_cons]
    exact (forks_of_lt hlt).append_lt _ _
  | cons _ ih =>
    rw [List.flatMap_cons, List.flatMap_cons]
    exact List.Lex.append_left _ ih _

/-- **Texts are in the order of their bytes.** -/
theorem bytesOf_lt_bytesOf_iff {s t : String} : bytesOf s < bytesOf t ↔ s < t := by
  have hmono : ∀ {s t : String}, s < t → bytesOf s < bytesOf t := by
    intro s t h
    rw [bytesOf_eq, bytesOf_eq]
    exact flatMap_lt_flatMap (String.lt_iff_toList_lt.1 h)
  refine ⟨fun h => ?_, hmono⟩
  rcases lt_trichotomy s t with hlt | rfl | hgt
  · exact hlt
  · exact absurd h (List.lt_irrefl _)
  · exact absurd h (List.lt_asymm (hmono hgt))

end CommandGrammar
