import CommandGrammar.Proofs.Text.ByteOrder
import CommandGrammar.Text.Lines
import Mathlib.Data.List.SplitBy

/-!
# Lines and their bytes

A text is given to the program as bytes, and these are split into lines before any of them is taken
for a text. That does not matter: no character but the line feed has the byte of the line feed among
its own (`lineFeed_mem_bytesOf_iff`). So lines that were written one below the other are found again
(`splitLines_flatMap`), each is the text that it was (`fromUTF8?_bytesOf`), and nothing but its line
feed is cut off (`dropWhileEnd_concat`).
-/

namespace CommandGrammar

/-! ### Splitting -/

section Split

variable {α : Type} [BEq α] [LawfulBEq α] {lineFeed : α} {line : List α}

/-- Up to its line feed nothing ends a line. -/
theorem splitLines_concat (h : lineFeed ∉ line) :
    splitLines lineFeed (line ++ [lineFeed]) = [line ++ [lineFeed]] := by
  refine List.splitBy_of_isChain (by simp) ?_
  induction line with
  | nil => simp
  | cons x line ih =>
    rw [List.mem_cons, not_or] at h
    rw [List.cons_append, List.isChain_cons]
    refine ⟨fun y _ => ?_, ih h.2⟩
    simpa using Ne.symm h.1

/-- Behind a line feed a new line begins. -/
theorem splitLines_append (h : lineFeed ∉ line) (rest : List α) :
    splitLines lineFeed (line ++ [lineFeed] ++ rest) =
      (line ++ [lineFeed]) :: splitLines lineFeed rest := by
  rw [splitLines, List.splitBy_append, ← splitLines, ← splitLines, splitLines_concat h]
  · rfl
  · intro x hx y _
    simp only [List.getLast?_append, List.getLast?_singleton, Option.some_or, Option.mem_def,
      Option.some.injEq] at hx
    simp [hx]

/-- **Lines that were written one below the other are found again.** -/
theorem splitLines_flatMap {lines : List (List α)} (h : ∀ line ∈ lines, lineFeed ∉ line) :
    splitLines lineFeed (lines.flatMap (· ++ [lineFeed])) = lines.map (· ++ [lineFeed]) := by
  induction lines with
  | nil => rfl
  | cons line lines ih =>
    rw [List.forall_mem_cons] at h
    rw [List.flatMap_cons, splitLines_append h.1, ih h.2, List.map_cons]

end Split

/-- What is cut off behind a text does not reach into it. -/
theorem dropWhileEnd_concat {α : Type} {p : α → Bool} {text : List α} {x : α} (hx : p x = true)
    (htext : ∀ y ∈ text.getLast?, p y = false) : dropWhileEnd p (text ++ [x]) = text := by
  rw [dropWhileEnd, List.reverse_append, List.reverse_singleton, List.singleton_append,
    List.dropWhile_cons_of_pos hx]
  cases hr : text.reverse with
  | nil => simpa using hr.symm
  | cons y rest =>
    rw [List.dropWhile_cons_of_neg, ← hr, List.reverse_reverse]
    rw [htext y (by rw [← List.head?_reverse, hr]; rfl)]
    exact Bool.false_ne_true

/-! ### Bytes -/

theorem toList_loop_eq (bytes : ByteArray) (i : Nat) (done : List UInt8) :
    ByteArray.toList.loop bytes i done = done.reverse ++ bytes.data.toList.drop i := by
  fun_induction ByteArray.toList.loop bytes i done with
  | case1 i done h ih =>
    have hi : i < bytes.data.toList.length := by simpa using h
    rw [ih, List.drop_eq_getElem_cons hi]
    simp [ByteArray.get!, h]
  | case2 i done h =>
    rw [List.drop_eq_nil_of_le (by simpa using Nat.le_of_not_lt h)]
    simp

theorem toList_toUTF8 (s : String) : s.toUTF8.toList = bytesOf s := by
  rw [ByteArray.toList, toList_loop_eq, String.toUTF8_eq_toByteArray]
  rfl

/-- The bytes of a text can be taken for a text, and that is the text itself. -/
theorem fromUTF8?_bytesOf (s : String) : String.fromUTF8? ⟨(bytesOf s).toArray⟩ = some s := by
  have hbytes : (⟨(bytesOf s).toArray⟩ : ByteArray) = s.toByteArray := by simp [bytesOf]
  rw [hbytes, String.fromUTF8?, dif_pos s.isValidUTF8]
  rfl

theorem bytesOf_append (s t : String) : bytesOf (s ++ t) = bytesOf s ++ bytesOf t := by
  simp only [bytesOf_eq, String.toList_append, List.flatMap_append]

/-- The bytes of a longer form are no line feed. -/
theorem lineFeed_ne_ofNat {n : Nat} (h : 128 ≤ n) (hn : n < 256) : (10 : UInt8) ≠ UInt8.ofNat n := by
  intro e
  have hnat := congrArg UInt8.toNat e
  rw [UInt8.toNat_ofNat', Nat.mod_eq_of_lt hn] at hnat
  have hten : (10 : UInt8).toNat = 10 := rfl
  omega

theorem lineFeed_mem_utf8EncodeChar_iff {c : Char} :
    (10 : UInt8) ∈ String.utf8EncodeChar c ↔ c = '\n' := by
  constructor
  · intro h
    rw [String.utf8EncodeChar] at h
    by_cases hone : c.val.toNat ≤ 127
    · rw [if_pos hone, List.mem_singleton] at h
      have hten := congrArg UInt8.toNat h
      rw [UInt8.toNat_ofNat', Nat.mod_eq_of_lt (by omega)] at hten
      exact Char.ext (UInt32.toNat_inj.1 hten.symm)
    · -- in the longer forms every byte has its highest bit set
      rw [if_neg hone] at h
      exfalso
      split at h
      · simp only [List.mem_cons, List.not_mem_nil, or_false] at h
        rcases h with h | h <;> exact lineFeed_ne_ofNat (by omega) (by omega) h
      split at h
      · simp only [List.mem_cons, List.not_mem_nil, or_false] at h
        rcases h with h | h | h <;> exact lineFeed_ne_ofNat (by omega) (by omega) h
      · simp only [List.mem_cons, List.not_mem_nil, or_false] at h
        rcases h with h | h | h | h <;> exact lineFeed_ne_ofNat (by omega) (by omega) h
  · rintro rfl
    decide

/-- **Only a line feed has the byte of a line feed.** -/
theorem lineFeed_mem_bytesOf_iff {s : String} : (10 : UInt8) ∈ bytesOf s ↔ '\n' ∈ s.toList := by
  rw [bytesOf_eq, List.mem_flatMap]
  simp only [lineFeed_mem_utf8EncodeChar_iff, exists_eq_right]

end CommandGrammar
