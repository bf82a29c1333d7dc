import CommandGrammar.Argument

/-!
# Values read back as they are written

A type reads a text as a value in front of some tail if, wherever the text stands before that tail,
it reads the value and leaves the tail (`ArgumentType.ReadsAs`).

Main statements: an integer within the bounds is read from its decimal digits
(`ArgumentType.readsAs_integer`), a word from itself, a text of the rest of the line from all of
that, and a quoted text from its quoted form (`ArgumentType.readsAs_quoted`). Words and integers need
a tail that ends them; a quoted text ends itself.
-/

namespace CommandGrammar

/-! ### Integers -/

theorem readNat?_toDigits (n : Nat) : readNat? (Nat.toDigits 10 n) = some n := by
  have hdigits : (Nat.toDigits 10 n).all Char.isDigit = true :=
    List.all_eq_true.2 fun c hc => Nat.isDigit_of_mem_toDigits (by decide) (by decide) hc
  rw [readNat?, if_pos ⟨Nat.toDigits_ne_nil, hdigits⟩]
  exact congrArg some (Nat.ofDigitChars_toDigits (by decide) (by decide))

/-- Digits are not taken for a sign. -/
theorem splitSign_of_digits {text : List Char} (h : ∀ c ∈ text, c.isDigit = true) :
    splitSign text = (false, text) := by
  unfold splitSign
  split
  · exact absurd (h _ List.mem_cons_self) (by decide)
  · exact absurd (h _ List.mem_cons_self) (by decide)
  · rfl

theorem toList_toString_ofNat (n : Nat) : (toString (n : Int)).toList = Nat.toDigits 10 n :=
  Nat.toList_repr

theorem toList_toString_negSucc (n : Nat) :
    (toString (Int.negSucc n)).toList = '-' :: Nat.toDigits 10 (n + 1) := by
  change ("-" ++ (n + 1).repr).toList = _
  rw [String.toList_append, Nat.toList_repr]
  rfl

/-- An integer is read from its decimal digits. -/
theorem readInt?_toString (n : Int) : readInt? (toString n).toList = some n := by
  cases n with
  | ofNat n =>
    have hdigits : ∀ c ∈ Nat.toDigits 10 n, c.isDigit = true := fun c hc =>
      Nat.isDigit_of_mem_toDigits (by decide) (by decide) hc
    rw [Int.ofNat_eq_natCast, toList_toString_ofNat, readInt?, splitSign_of_digits hdigits]
    simp [readNat?_toDigits, Binary.signed]
  | negSucc n =>
    rw [toList_toString_negSucc, readInt?, splitSign]
    simp only [readNat?_toDigits, Option.map_some, Binary.signed, ↓reduceIte]
    rfl

/-- Different integers are written differently. -/
theorem toString_int_inj {n m : Int} (h : toString n = toString m) : n = m := by
  have hread := readInt?_toString n
  rw [h, readInt?_toString m] at hread
  exact (Option.some.inj hread).symm

/-- Only digits and a sign are needed for that. -/
theorem allows_of_mem_toString {kind : NumberKind} {n : Int} :
    ∀ c ∈ (toString n).toList, kind.allows c = true := by
  have hdigits : ∀ n, ∀ c ∈ Nat.toDigits 10 n, kind.allows c = true := by
    intro n c hc
    rw [NumberKind.allows, Nat.isDigit_of_mem_toDigits (by decide) (by decide) hc]
    rfl
  cases n with
  | ofNat n =>
    rw [Int.ofNat_eq_natCast, toList_toString_ofNat]
    exact hdigits n
  | negSucc n =>
    rw [toList_toString_negSucc, List.forall_mem_cons]
    exact ⟨by simp [NumberKind.allows], hdigits (n + 1)⟩

theorem toString_int_ne_nil (n : Int) : (toString n).toList ≠ [] := by
  cases n with
  | ofNat n =>
    rw [Int.ofNat_eq_natCast, toList_toString_ofNat]
    exact Nat.toDigits_ne_nil
  | negSucc n =>
    rw [toList_toString_negSucc]
    exact List.cons_ne_nil _ _

/-! ### Values -/

/-- A type reads a text as a value wherever the text stands before a tail, and leaves the tail. -/
def ArgumentType.ReadsAs (type : ArgumentType) (context : Context) (text : List Char)
    (value : Value) (tail : List Char) : Prop :=
  ∀ c : Cursor, c.rest = text ++ tail →
    ∃ after, type.read context c = .ok (value, after) ∧ after.rest = tail

/-- A tail that begins with none of some characters. -/
def Stops (p : Char → Bool) (tail : List Char) : Prop := ∀ next ∈ tail.head?, p next = false

theorem stops_nil (p : Char → Bool) : Stops p [] := by
  intro next hnext
  cases hnext

theorem stops_cons {p : Char → Bool} {next : Char} (h : p next = false) (tail : List Char) :
    Stops p (next :: tail) := by
  intro other hother
  exact Option.some.inj hother ▸ h

/-- A run of characters ends where the tail begins. -/
theorem Stops.takeWhile_append {p : Char → Bool} {text tail : List Char} (h : Stops p tail)
    (htext : ∀ c ∈ text, p c = true) :
    (text ++ tail).takeWhile p = text ∧ (text ++ tail).dropWhile p = tail := by
  rw [List.takeWhile_append_of_pos htext, List.dropWhile_append_of_pos htext]
  cases tail with
  | nil => simp
  | cons next tail => simp [h next rfl]

namespace ArgumentType

variable {context : Context} {text tail : List Char}

/-- A word is read up to the next blank. -/
theorem readsAs_word (htext : ∀ c ∈ text, inWord c = true) (htail : Stops inWord tail) :
    (ArgumentType.text .word).ReadsAs context text (.text (String.ofList text)) tail := by
  intro c hc
  obtain ⟨htake, hdrop⟩ := htail.takeWhile_append htext
  refine ⟨c.dropWhile inWord, ?_, ?_⟩
  · rw [read, readWord, hc, htake]
    rfl
  · rw [Cursor.dropWhile, hc, hdrop]

/-- All of the rest of a line is a text. -/
theorem readsAs_greedy :
    (ArgumentType.text .greedy).ReadsAs context text (.text (String.ofList text)) [] := by
  intro c hc
  rw [List.append_nil] at hc
  refine ⟨c.advance c.rest.length, ?_, by simp [Cursor.advance]⟩
  rw [read, readGreedy, hc]
  rfl

/-- A quoted text is read from its quoted form. -/
theorem readsAs_quoted :
    (ArgumentType.text .quoted).ReadsAs context (Quoted.write text) (.text (String.ofList text))
      tail := by
  intro c hc
  have hscan : Quoted.scanBody (c.rest.drop 1) = ⟨.ok text, (Quoted.writeBody text).length⟩ := by
    rw [hc, Quoted.write, List.cons_append, List.drop_one, List.tail_cons,
      Quoted.scanBody_writeBody]
  refine ⟨c.advance (1 + (Quoted.writeBody text).length), ?_, ?_⟩
  · have hpeek : c.peek = some Quoted.quote := by rw [Cursor.peek, hc]; rfl
    rw [read, readQuoted, if_pos hpeek, hscan]
    rfl
  · rw [Cursor.advance, hc, Quoted.write, Nat.add_comm]
    simp

/-- Nothing is wrong with an integer exactly if it lies within the bounds. -/
theorem boundFault?_eq_none_iff {kind : IntegerKind} {bounds : Option (Int × Int)} {n : Int} :
    kind.domain.boundFault? bounds n = none ↔ ∀ b ∈ bounds, b.1 ≤ n ∧ n ≤ b.2 := by
  rcases bounds with _ | ⟨least, greatest⟩
  · simp [NumberDomain.boundFault?]
  · have hiff : (∀ b ∈ some (least, greatest), b.1 ≤ n ∧ n ≤ b.2) ↔ least ≤ n ∧ n ≤ greatest := by
      simp
    rw [hiff, NumberDomain.boundFault?, ← Int.not_lt, ← Int.not_lt]
    by_cases hlow : n < least <;> by_cases hhigh : greatest < n <;>
      simp [IntegerKind.domain, hlow, hhigh]

/-- An integer within the bounds is read from its decimal digits. -/
theorem readsAs_integer {kind : IntegerKind} {bounds : Option (Int × Int)} {n : Int}
    (hholds : kind.holds n = true) (hbounds : ∀ b ∈ bounds, b.1 ≤ n ∧ n ≤ b.2)
    (htail : Stops (NumberKind.integer kind).allows tail) :
    (ArgumentType.integer kind bounds).ReadsAs context (toString n).toList
      (.number (.integer kind n)) tail := by
  intro c hc
  obtain ⟨htake, hdrop⟩ := htail.takeWhile_append allows_of_mem_toString
  have hread : kind.domain.read? (toString n).toList = some n := by
    change (readInt? _).filter kind.holds = some n
    rw [readInt?_toString, Option.filter_some, if_pos hholds]
  refine ⟨c.dropWhile kind.domain.kind.allows, ?_, by rw [Cursor.dropWhile, hc]; exact hdrop⟩
  have hrun : c.rest.takeWhile kind.domain.kind.allows = (toString n).toList := by
    rw [hc]
    exact htake
  simp only [read, NumberDomain.read, hrun, if_neg (toString_int_ne_nil n), hread,
    boundFault?_eq_none_iff.2 hbounds]
  rfl

/-- An integer that is read lies within the bounds. -/
theorem exists_of_read_integer {kind : IntegerKind} {bounds : Option (Int × Int)} {value : Value}
    {c d : Cursor} (h : (ArgumentType.integer kind bounds).read context c = .ok (value, d)) :
    ∃ n, value = .number (.integer kind n) ∧ ∀ b ∈ bounds, b.1 ≤ n ∧ n ≤ b.2 := by
  obtain ⟨n, hn, hvalue⟩ := Reading.exists_of_as_eq_ok h
  have hnone : kind.domain.boundFault? bounds n = none := by
    simp only [NumberDomain.read, Cursor.fail] at hn
    split at hn
    · cases hn
    · split at hn
      · cases hn
      · split at hn
        · cases hn
        · rename_i hfault
          obtain ⟨rfl, -⟩ := Prod.mk.inj (Except.ok.inj hn)
          exact hfault
  exact ⟨n, hvalue.symm, boundFault?_eq_none_iff.1 hnone⟩

end ArgumentType

end CommandGrammar
