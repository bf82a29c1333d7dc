import CommandGrammar.Proofs.Match.Written
import Mathlib.Data.List.Induction
import Mathlib.Data.Nat.Digits.Defs

/-!
# Which integers are read

An integer argument takes the longest run of digits and signs (`IsRun`), whatever it looks like. What
comes of it is decided afterwards: the run has to write an integer (`Numeral`), which is a matter of
text alone, the integer has to have a form of the width in two's complement (`IntegerKind.Fits`), and
it has to lie within the bounds, of which the lower one is looked at first.

Main statement: reading gives what these rules say, and every error lies where the run begins
(`ArgumentType.read_integer`).
-/

namespace CommandGrammar

/-! ### Runs and numerals -/

/-- Whether a character may stand in a run: a digit or a sign. -/
def InRun (ch : Char) : Prop := ch.isDigit = true ∨ ch = '+' ∨ ch = '-'

/-- The text at a place begins with a run, and the run is not followed by more of its characters. -/
structure IsRun (c : Cursor) (run tail : List Char) : Prop where
  /-- It stands there. -/
  rest_eq : c.rest = run ++ tail
  /-- It is made of digits and signs. -/
  inRun : ∀ ch ∈ run, InRun ch
  /-- It cannot be longer. -/
  ends : ∀ ch ∈ tail.head?, ¬ InRun ch

/-- At least one digit, and digits only. -/
def IsDigits (text : List Char) : Prop := text ≠ [] ∧ ∀ ch ∈ text, ch.isDigit = true

/-- The number that decimal digits stand for; the last digit counts the ones. -/
def decimalValue (digits : List Char) : Nat := Nat.ofDigits 10 (digits.reverse.map digitValue)

/-- A text writes an integer: digits, perhaps with a single sign before them. -/
inductive Numeral : List Char → Int → Prop where
  /-- Digits alone. -/
  | unsigned {digits : List Char} : IsDigits digits → Numeral digits (decimalValue digits)
  /-- A plus sign and digits. -/
  | plus {digits : List Char} : IsDigits digits → Numeral ('+' :: digits) (decimalValue digits)
  /-- A minus sign and digits. -/
  | minus {digits : List Char} : IsDigits digits → Numeral ('-' :: digits) (-decimalValue digits)

/-- An integer has a form of a width in two's complement. -/
def IntegerKind.Fits (kind : IntegerKind) (n : Int) : Prop :=
  -2 ^ (kind.bits - 1) ≤ n ∧ n < 2 ^ (kind.bits - 1)

instance (kind : IntegerKind) (n : Int) : Decidable (kind.Fits n) :=
  inferInstanceAs (Decidable (_ ∧ _))

/-- What reading an integer of a width within bounds at a place gives. -/
inductive IntegerKind.Reads (kind : IntegerKind) (bounds : Option (Int × Int)) (c : Cursor) :
    Reading Value → Prop where
  /-- The run is empty. -/
  | expected {tail : List Char} : IsRun c [] tail →
      Reads kind bounds c (.error ⟨.expectedNumber (.integer kind), c⟩)
  /-- The run writes no integer of the width. -/
  | invalid {run tail : List Char} : IsRun c run tail → run ≠ [] →
      (∀ n, Numeral run n → ¬ kind.Fits n) →
      Reads kind bounds c (.error ⟨.invalidNumber (.integer kind) (String.ofList run), c⟩)
  /-- The integer lies below the lower bound. -/
  | tooLow {run tail : List Char} {n least greatest : Int} : IsRun c run tail → Numeral run n →
      kind.Fits n → bounds = some (least, greatest) → n < least →
      Reads kind bounds c (.error ⟨.numberTooLow (.integer kind least) (.integer kind n), c⟩)
  /-- The integer lies above the upper bound, but not below the lower one. -/
  | tooHigh {run tail : List Char} {n least greatest : Int} : IsRun c run tail → Numeral run n →
      kind.Fits n → bounds = some (least, greatest) → least ≤ n → greatest < n →
      Reads kind bounds c (.error ⟨.numberTooHigh (.integer kind greatest) (.integer kind n), c⟩)
  /-- The integer lies within the bounds, if there are any. -/
  | within {run tail : List Char} {n : Int} : IsRun c run tail → Numeral run n → kind.Fits n →
      (∀ b ∈ bounds, b.1 ≤ n ∧ n ≤ b.2) →
      Reads kind bounds c (.ok (.number (.integer kind n), ⟨c.consumed ++ run, tail⟩))

/-! ### Digits -/

theorem ofDigits_eq_decimalValue (digits : List Char) : ofDigits digits = decimalValue digits := by
  induction digits using List.reverseRecOn with
  | nil => rfl
  | append_singleton digits d ih =>
    have hfold : ofDigits (digits ++ [d]) = 10 * ofDigits digits + digitValue d :=
      List.foldl_append
    rw [hfold, ih, Nat.add_comm, decimalValue, decimalValue, List.reverse_append,
      List.reverse_singleton, List.singleton_append, List.map_cons, Nat.ofDigits_cons]

theorem readNat?_eq_some_iff {text : List Char} {n : Nat} :
    readNat? text = some n ↔ IsDigits text ∧ decimalValue text = n := by
  rw [readNat?, ofDigits_eq_decimalValue, IsDigits, ← List.all_eq_true]
  by_cases h : text ≠ [] ∧ text.all Char.isDigit = true
  · rw [if_pos h, Option.some_inj, and_iff_right h]
  · rw [if_neg h]
    exact iff_of_false (by simp) fun hdigits => h hdigits.1

/-- Integers are read from numerals and from nothing else. -/
theorem readInt?_eq_some_iff {text : List Char} {n : Int} :
    readInt? text = some n ↔ Numeral text n := by
  constructor
  · intro h
    unfold readInt? splitSign at h
    split at h
    rename_i negative digits hsplit
    obtain ⟨m, hm, rfl⟩ := Option.map_eq_some_iff.1 h
    obtain ⟨hdigits, rfl⟩ := readNat?_eq_some_iff.1 hm
    split at hsplit
    · cases hsplit
      exact .minus hdigits
    · cases hsplit
      exact .plus hdigits
    · cases hsplit
      exact .unsigned hdigits
  · rintro (hdigits | hdigits | hdigits)
    · simp [readInt?, splitSign_of_digits hdigits.2, readNat?_eq_some_iff.2 ⟨hdigits, rfl⟩,
        Binary.signed]
    · simp [readInt?, splitSign, readNat?_eq_some_iff.2 ⟨hdigits, rfl⟩, Binary.signed]
    · simp [readInt?, splitSign, readNat?_eq_some_iff.2 ⟨hdigits, rfl⟩, Binary.signed]

/-! ### Integers of a width -/

namespace IntegerKind

variable {kind : IntegerKind} {bounds : Option (Int × Int)} {c : Cursor} {run tail : List Char}
  {n least greatest : Int}

theorem holds_iff : kind.holds n = true ↔ kind.Fits n := by
  have hpow : ((Nat.pow 2 (kind.bits - 1) : Nat) : Int) = 2 ^ (kind.bits - 1) := Nat.cast_pow 2 _
  rw [holds, decide_eq_true_iff, IntegerKind.least, IntegerKind.greatest, hpow, Fits,
    Int.le_sub_one_iff]

theorem read?_eq_some_iff : kind.read? run = some n ↔ Numeral run n ∧ kind.Fits n := by
  rw [IntegerKind.read?, Option.filter_eq_some_iff, readInt?_eq_some_iff, holds_iff]

theorem read?_eq_none_iff : kind.read? run = none ↔ ∀ n, Numeral run n → ¬ kind.Fits n := by
  simp only [Option.eq_none_iff_forall_ne_some, ne_eq, read?_eq_some_iff, not_and]

/-! ### The run at a place -/

theorem allows_iff {ch : Char} : (NumberKind.integer kind).allows ch = true ↔ InRun ch := by
  simp [NumberKind.allows, NumberKind.isFloating, InRun, or_assoc]

/-- At every place stands a run, if only an empty one. -/
theorem exists_isRun (c : Cursor) : ∃ run tail, IsRun c run tail := by
  let allows := (NumberKind.integer .long).allows
  refine ⟨c.rest.takeWhile allows, c.rest.dropWhile allows,
    List.takeWhile_append_dropWhile.symm, fun ch hch => ?_, fun ch hch hrun => ?_⟩
  · exact allows_iff.1 (List.all_eq_true.1 List.all_takeWhile ch hch)
  · have hfalse := List.head?_dropWhile_not allows c.rest
    rw [Option.mem_def.1 hch] at hfalse
    exact absurd (allows_iff.2 hrun) (by simpa using hfalse)

theorem takeWhile_of_isRun (kind : IntegerKind) (h : IsRun c run tail) :
    c.rest.takeWhile kind.domain.kind.allows = run ∧
      c.dropWhile kind.domain.kind.allows = ⟨c.consumed ++ run, tail⟩ := by
  have hstops : Stops (NumberKind.integer kind).allows tail := fun ch hch =>
    Bool.eq_false_iff.2 fun hallows => h.ends ch hch (allows_iff.1 hallows)
  obtain ⟨htake, hdrop⟩ := hstops.takeWhile_append fun ch hch => allows_iff.2 (h.inRun ch hch)
  have hkind : kind.domain.kind = .integer kind := rfl
  rw [Cursor.dropWhile, h.rest_eq, hkind, htake, hdrop]
  exact ⟨rfl, rfl⟩

/-- Nothing is read from an empty run. -/
theorem read_of_isRun_nil (h : IsRun c [] tail) :
    kind.domain.read bounds c = .error ⟨.expectedNumber (.integer kind), c⟩ := by
  rw [NumberDomain.read, (takeWhile_of_isRun kind h).1]
  rfl

/-- What is read from any other run depends on the run alone. -/
theorem read_of_isRun (h : IsRun c run tail) (hne : run ≠ []) :
    kind.domain.read bounds c = match kind.read? run with
      | none => .error ⟨.invalidNumber (.integer kind) (String.ofList run), c⟩
      | some n => match kind.domain.boundFault? bounds n with
        | some cause => .error ⟨cause, c⟩
        | none => .ok (n, ⟨c.consumed ++ run, tail⟩) := by
  obtain ⟨hrun, hafter⟩ := takeWhile_of_isRun kind h
  have hread : kind.domain.read? run = kind.read? run := rfl
  rw [NumberDomain.read, hrun, hafter, if_neg hne, hread]
  rcases kind.read? run with _ | n
  · rfl
  · rcases kind.domain.boundFault? bounds n with _ | cause <;> rfl

theorem Reads.read_eq {r : Reading Value} (h : kind.Reads bounds c r) (context : Context) :
    (ArgumentType.integer kind bounds).read context c = r := by
  have hne : ∀ {run n}, Numeral run n → run ≠ [] := by
    rintro run n (hdigits | hdigits | hdigits)
    · exact hdigits.1
    · exact List.cons_ne_nil _ _
    · exact List.cons_ne_nil _ _
  rw [ArgumentType.read]
  cases h with
  | expected hrun =>
    rw [read_of_isRun_nil hrun]
    rfl
  | invalid hrun hne hinvalid =>
    rw [read_of_isRun hrun hne, read?_eq_none_iff.2 hinvalid]
    rfl
  | tooLow hrun hnumeral hfits hbounds hlow =>
    rw [read_of_isRun hrun (hne hnumeral), read?_eq_some_iff.2 ⟨hnumeral, hfits⟩, hbounds]
    simp [NumberDomain.boundFault?, IntegerKind.domain, hlow, Reading.as]
  | tooHigh hrun hnumeral hfits hbounds hlow hhigh =>
    rw [read_of_isRun hrun (hne hnumeral), read?_eq_some_iff.2 ⟨hnumeral, hfits⟩, hbounds]
    simp [NumberDomain.boundFault?, IntegerKind.domain, hhigh, Int.not_lt.2 hlow, Reading.as]
  | within hrun hnumeral hfits hwithin =>
    rw [read_of_isRun hrun (hne hnumeral), read?_eq_some_iff.2 ⟨hnumeral, hfits⟩]
    simp [ArgumentType.boundFault?_eq_none_iff.2 hwithin, Reading.as]

/-- At every place there is something to be read, if only an error. -/
theorem exists_reads (kind : IntegerKind) (bounds : Option (Int × Int)) (c : Cursor) :
    ∃ r, kind.Reads bounds c r := by
  obtain ⟨run, tail, hrun⟩ := exists_isRun c
  by_cases hnil : run = []
  · exact ⟨_, .expected (hnil ▸ hrun)⟩
  by_cases hvalid : ∃ n, Numeral run n ∧ kind.Fits n
  · obtain ⟨n, hnumeral, hfits⟩ := hvalid
    rcases hbounds : bounds with _ | ⟨least, greatest⟩
    · exact ⟨_, .within hrun hnumeral hfits nofun⟩
    · by_cases hlow : n < least
      · exact ⟨_, .tooLow hrun hnumeral hfits rfl hlow⟩
      by_cases hhigh : greatest < n
      · exact ⟨_, .tooHigh hrun hnumeral hfits rfl (Int.not_lt.1 hlow) hhigh⟩
      · refine ⟨_, .within hrun hnumeral hfits fun b hb => ?_⟩
        obtain rfl := Option.some.inj hb
        exact ⟨Int.not_lt.1 hlow, Int.not_lt.1 hhigh⟩
  · exact ⟨_, .invalid hrun hnil fun n hnumeral hfits => hvalid ⟨n, hnumeral, hfits⟩⟩

end IntegerKind

theorem numeral_toString (n : Int) : Numeral (toString n).toList n :=
  readInt?_eq_some_iff.1 (readInt?_toString n)

theorem isRun_toString {c : Cursor} {n : Int} {tail : List Char}
    (hrest : c.rest = (toString n).toList ++ tail) (htail : ∀ ch ∈ tail.head?, ¬ InRun ch) :
    IsRun c (toString n).toList tail where
  rest_eq := hrest
  inRun ch hch :=
    have hallows : (NumberKind.integer .long).allows ch = true := allows_of_mem_toString ch hch
    IntegerKind.allows_iff.1 hallows
  ends := htail

/-- **What reading an integer gives.** There is exactly one thing that it can give at a place, and
if it is an error then it lies there. In particular every integer of the width that lies within the
bounds is read from its decimal text, unless the text goes on with a digit or a sign. -/
theorem ArgumentType.read_integer (kind : IntegerKind) (bounds : Option (Int × Int))
    (context : Context) (c : Cursor) :
    (∀ r, (ArgumentType.integer kind bounds).read context c = r ↔ kind.Reads bounds c r) ∧
    (∀ e, (ArgumentType.integer kind bounds).read context c = .error e → e.place = c) ∧
    ∀ n tail, kind.Fits n → (∀ b ∈ bounds, b.1 ≤ n ∧ n ≤ b.2) →
      c.rest = (toString n).toList ++ tail → (∀ ch ∈ tail.head?, ¬ InRun ch) →
      (ArgumentType.integer kind bounds).read context c =
        .ok (.number (.integer kind n), ⟨c.consumed ++ (toString n).toList, tail⟩) := by
  have hreads : ∀ r, (ArgumentType.integer kind bounds).read context c = r ↔
      kind.Reads bounds c r := by
    refine fun r => ⟨?_, fun h => h.read_eq context⟩
    rintro rfl
    obtain ⟨r, hr⟩ := IntegerKind.exists_reads kind bounds c
    exact hr.read_eq context ▸ hr
  refine ⟨hreads, fun e he => ?_, fun n tail hfits hwithin hrest htail => ?_⟩
  · cases (hreads _).1 he <;> rfl
  · exact (hreads _).2 (.within (isRun_toString hrest htail) (numeral_toString n) hfits hwithin)

/-- The least byte is read from its digits, and a byte that is written with more digits than it has
is looked at in the same way. -/
theorem ArgumentType.read_integer_byte :
    IntegerKind.byte.Fits (-128) ∧ (∀ b ∈ some (-128, (6 : Int)), b.1 ≤ -128 ∧ -128 ≤ b.2) ∧
      (Cursor.atStart "-128 ").rest = (toString (-128 : Int)).toList ++ [' '] ∧
      (∀ ch ∈ [' '].head?, ¬ InRun ch) ∧
      (ArgumentType.integer .byte (some (-128, 6))).read .empty (.atStart "-128 ") =
        .ok (.number (.integer .byte (-128)), ⟨"-128".toList, [' ']⟩) ∧
      (ArgumentType.integer .byte (some (-128, 6))).read .empty (.atStart "+007") =
        .error ⟨.numberTooHigh (.integer .byte 6) (.integer .byte 7), .atStart "+007"⟩ := by
  have hfits : IntegerKind.byte.Fits (-128) := by decide
  have hwithin : ∀ b ∈ some (-128, (6 : Int)), b.1 ≤ -128 ∧ -128 ≤ b.2 := by decide
  have hrest : (Cursor.atStart "-128 ").rest = (toString (-128 : Int)).toList ++ [' '] := by decide
  have htail : ∀ ch ∈ [' '].head?, ¬ InRun ch := by simp [InRun]
  have hdigits : IsDigits "007".toList := by simp [IsDigits]
  have hrun : IsRun (.atStart "+007") ('+' :: "007".toList) [] := ⟨rfl, by simp [InRun], by simp⟩
  refine ⟨hfits, hwithin, hrest, htail, ?_, ?_⟩
  · exact (ArgumentType.read_integer _ _ _ _).2.2 _ _ hfits hwithin hrest htail
  · exact ((ArgumentType.read_integer _ _ _ _).1 _).2
      (.tooHigh hrun (.plus hdigits) (by decide) rfl (by decide) (by decide))

end CommandGrammar
