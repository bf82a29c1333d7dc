import CommandGrammar.Proofs.Match.Refusal
import CommandGrammar.Proofs.Text.Boundary
import CommandGrammar.Proofs.Text.Quoted

/-!
# The contract of the types at hand

Whoever uses a type relies on more than its values: on where it stops, on the text in between being
all that it has looked at, and on what it does when it fails. This module states that contract
(`ArgumentType.Contract`). How the text of a floating-point number is converted plays no part in it,
so the conversion is left open (`ArgumentType.readWith`); the types read with that of their kind
(`ArgumentType.readWith_read?`).

Main statement: all types at hand keep the contract, whatever the conversion
(`ArgumentType.contract_of_isBuiltIn`).

All types but quoted texts take the longest run of some characters and judge it as a whole
(`readRun`). They keep the contract for that reason alone; the judgement does not matter. A separator
ends the run of every type but the text of the rest of a line. A quoted text ends itself.
-/

namespace CommandGrammar

/-! ### Places of one line -/

namespace Cursor

/-- A place of the same line that does not lie before another one, nor inside a character. -/
structure Ahead (c d : Cursor) : Prop where
  /-- It is a place of the same line. -/
  line_eq : d.line = c.line
  /-- It does not lie before the other one. -/
  index_le : c.index ≤ d.index
  /-- It does not lie behind the line. -/
  index_le_utf8ByteSize : d.index ≤ (String.ofList c.line).utf8ByteSize
  /-- It does not lie inside a character. -/
  isBoundary : IsBoundary (String.ofList c.line) d.index

theorem Advances.ahead {c d : Cursor} (h : c.Advances d) : c.Ahead d := by
  have hboundary : IsBoundary (String.ofList c.line) d.index :=
    isBoundary_index (by rw [h.line_eq, String.toList_ofList])
  exact ⟨h.line_eq, h.index_le, hboundary.le, hboundary⟩

/-- The same place with more text at the end of the line. -/
def append (c : Cursor) (more : List Char) : Cursor := ⟨c.consumed, c.rest ++ more⟩

end Cursor

/-! ### The contract -/

namespace ArgumentType

/-- Reads a value at a place, where `convert` says which floating-point number a text is. -/
def readWith (convert : FloatKind → List Char → Option Binary) (type : ArgumentType)
    (context : Context) (c : Cursor) : Reading Value :=
  match type with
  | floating kind bounds =>
    let domain := { kind.domain with read? := convert kind }
    Reading.as (fun x => .number (.floating kind x)) (domain.read bounds c)
  | type => type.read context c

/-- With the conversion of its kind a type reads as it does. -/
theorem readWith_read? (type : ArgumentType) : type.readWith FloatKind.read? = type.read := by
  cases type <;> rfl

/-- Whether the values of a type are numbers or truth values. -/
def isScalar : ArgumentType → Bool
  | integer _ _ => true
  | floating _ _ => true
  | boolean => true
  | _ => false

/-- What can be relied on when a type reads a value at a place. -/
structure Contract (type : ArgumentType) (read : Context → Cursor → Reading Value)
    (context : Context) (c : Cursor) : Prop where
  /-- Behind a value the line goes on from there. -/
  ahead_of_ok : ∀ {value after}, read context c = .ok (value, after) → c.Ahead after
  /-- The text of a value is read by itself as that value, to its end. -/
  slice?_of_ok : ∀ {value after}, read context c = .ok (value, after) →
    ∃ text, c.slice? (c.spanTo after) = some text ∧
      ∀ other, read other (.atStart (String.ofList text)) = .ok (value, ⟨text, []⟩)
  /-- A word or all of the rest can always be read, if only as the empty text. -/
  exists_ok : type = .text .word ∨ type = .text .greedy →
    ∃ value after, read context c = .ok (value, after)
  /-- Reading fails there or further on in the line. -/
  ahead_of_error : ∀ {e}, read context c = .error e → c.Ahead e.place
  /-- A number or a truth value is refused where it begins. -/
  place_eq : type.isScalar = true → ∀ {e}, read context c = .error e → e.place = c
  /-- The text before the place moves what is read and changes nothing else. -/
  read_front : ∀ front, read context ⟨front, c.rest⟩ = (read context ⟨[], c.rest⟩).behind front
  /-- A value at the end of a line stays the same, and stays where it is, with a separator and more
  text behind it, unless it is all of the rest. -/
  read_append : type ≠ .text .greedy → ∀ {value after}, read context c = .ok (value, after) →
    after.rest = [] → ∀ more, read context (c.append (separator :: more)) =
      .ok (value, after.append (separator :: more))

end ArgumentType

/-! ### Runs -/

/-- Reads the longest run of characters that satisfy `p`, and judges it as a whole. Every error lies
before the run. -/
def readRun (p : Char → Bool) (judge : List Char → Except ParseCause Value) (c : Cursor) :
    Reading Value :=
  match judge (c.rest.takeWhile p) with
  | .ok value => .ok (value, c.dropWhile p)
  | .error cause => c.fail cause

/-- Every run is a text. -/
def judgeText (run : List Char) : Except ParseCause Value := .ok (.text (String.ofList run))

section Run

variable {p : Char → Bool} {judge : List Char → Except ParseCause Value} {c : Cursor}

theorem readRun_eq_ok_iff {value : Value} {after : Cursor} :
    readRun p judge c = .ok (value, after) ↔
      judge (c.rest.takeWhile p) = .ok value ∧ c.dropWhile p = after := by
  unfold readRun Cursor.fail
  cases judge (c.rest.takeWhile p) <;> simp

theorem place_of_readRun {e : ParseError} (h : readRun p judge c = .error e) : e.place = c := by
  unfold readRun at h
  split at h
  · cases h
  · exact congrArg ParseError.place (Except.error.inj h).symm

/-- A run is its own longest run. -/
theorem readRun_atStart_takeWhile {value : Value} (h : judge (c.rest.takeWhile p) = .ok value) :
    readRun p judge (.atStart (String.ofList (c.rest.takeWhile p))) =
      .ok (value, ⟨c.rest.takeWhile p, []⟩) := by
  have hall : ∀ x ∈ c.rest.takeWhile p, p x = true := fun _ => List.mem_takeWhile_imp
  obtain ⟨htake, hdrop⟩ := (stops_nil p).takeWhile_append hall
  rw [List.append_nil] at htake hdrop
  rw [readRun_eq_ok_iff, Cursor.atStart, String.toList_ofList, Cursor.dropWhile, htake, hdrop]
  exact ⟨h, rfl⟩

theorem readRun_front (front rest : List Char) :
    readRun p judge ⟨front, rest⟩ = (readRun p judge ⟨[], rest⟩).behind front := by
  unfold readRun
  cases judge (rest.takeWhile p) with
  | error cause =>
    simp [Cursor.fail, Reading.behind, Except.map, Except.mapError, ParseError.behind,
      Cursor.behind]
  | ok value => rfl

/-- A run that goes to the end of a line ends before a character that does not belong to it. -/
theorem readRun_append (hp : p separator = false) {value : Value} {after : Cursor}
    (h : readRun p judge c = .ok (value, after)) (hend : after.rest = []) (more : List Char) :
    readRun p judge (c.append (separator :: more)) =
      .ok (value, after.append (separator :: more)) := by
  obtain ⟨hvalue, rfl⟩ := readRun_eq_ok_iff.1 h
  -- the run is all of the rest, so what is put behind it begins with the first character that ends it
  have hrest : c.rest.dropWhile p = [] := hend
  have hrun : c.rest.takeWhile p = c.rest := by
    rw [← List.append_nil (c.rest.takeWhile p), ← hrest]
    exact List.takeWhile_append_dropWhile
  have hall : ∀ x ∈ c.rest, p x = true := fun _ hx => List.mem_takeWhile_imp (hrun.symm ▸ hx)
  obtain ⟨htake, hdrop⟩ := (stops_cons hp more).takeWhile_append hall
  refine readRun_eq_ok_iff.2 ⟨?_, ?_⟩
  · rw [Cursor.append, htake, ← hrun]
    exact hvalue
  · simp only [Cursor.dropWhile, Cursor.append, htake, hdrop, hrun, hrest, List.nil_append]

/-- A type that takes runs keeps the contract if a separator ends them. -/
theorem contract_of_readRun {type : ArgumentType} {read : Context → Cursor → Reading Value}
    (hread : ∀ context c, read context c = readRun p judge c)
    (hp : type ≠ .text .greedy → p separator = false)
    (hjudge : type = .text .word ∨ type = .text .greedy → judge = judgeText) (context : Context) :
    type.Contract read context c where
  ahead_of_ok h := by
    rw [hread, readRun_eq_ok_iff] at h
    exact h.2 ▸ (c.advances_dropWhile p).ahead
  slice?_of_ok h := by
    obtain ⟨hvalue, rfl⟩ := readRun_eq_ok_iff.1 (hread context c ▸ h)
    refine ⟨_, Cursor.slice?_spanTo List.takeWhile_append_dropWhile.symm rfl, fun other => ?_⟩
    rw [hread, readRun_atStart_takeWhile hvalue]
  exists_ok htext := ⟨_, _, by rw [hread, hjudge htext]; exact readRun_eq_ok_iff.2 ⟨rfl, rfl⟩⟩
  ahead_of_error h := place_of_readRun (hread context c ▸ h) ▸ (Cursor.Advances.refl _).ahead
  place_eq _ _ h := place_of_readRun (hread context c ▸ h)
  read_front front := by rw [hread, hread, readRun_front]
  read_append hgreedy _ _ h hend more := by
    rw [hread] at h ⊢
    exact readRun_append (hp hgreedy) h hend more

end Run

/-! ### The types that take runs -/

/-- What a number type makes of a run. -/
def NumberDomain.judge {α : Type} (domain : NumberDomain α) (bounds : Option (α × α))
    (run : List Char) : Except ParseCause Value :=
  if run = [] then .error (.expectedNumber domain.kind)
  else
    match domain.read? run with
    | none => .error (.invalidNumber domain.kind (String.ofList run))
    | some value =>
      match domain.boundFault? bounds value with
      | some cause => .error cause
      | none => .ok (.number (domain.toNumber value))

theorem NumberDomain.read_eq_readRun {α : Type} (domain : NumberDomain α) (bounds : Option (α × α))
    (c : Cursor) : Reading.as (fun a => .number (domain.toNumber a)) (domain.read bounds c) =
      readRun domain.kind.allows (domain.judge bounds) c := by
  unfold NumberDomain.read readRun NumberDomain.judge
  simp only
  split
  · rfl
  · cases domain.read? (c.rest.takeWhile domain.kind.allows) with
    | none => rfl
    | some value => cases hfault : domain.boundFault? bounds value <;> simp [hfault] <;> rfl

/-- What a boolean makes of a word. -/
def judgeBoolean (word : List Char) : Except ParseCause Value :=
  match String.ofList word with
  | "true" => .ok (.boolean true)
  | "false" => .ok (.boolean false)
  | word => .error (.invalidBoolean word)

theorem readBoolean_eq_readRun (c : Cursor) :
    Reading.as .boolean (readBoolean c) = readRun inWord judgeBoolean c := by
  unfold readBoolean readRun judgeBoolean
  simp only
  generalize String.ofList (c.rest.takeWhile inWord) = word
  split
  · rfl
  · rfl
  · simp [Cursor.fail, Reading.as]

theorem readWord_eq_readRun (c : Cursor) :
    Reading.as .text (readWord c) = readRun inWord judgeText c := rfl

theorem readGreedy_eq_readRun (c : Cursor) :
    Reading.as .text (readGreedy c) = readRun (fun _ => true) judgeText c := by
  have hall : c.rest.takeWhile (fun _ => true) = c.rest := by simp
  have hnone : c.rest.dropWhile (fun _ => true) = [] := by simp
  simp [readGreedy, readRun, judgeText, Reading.as, Cursor.dropWhile, Cursor.advance, hall, hnone]

/-! ### Quoted texts -/

/-- A quoted text keeps the contract, since it goes no further than its closing quote. -/
theorem contract_quoted (context : Context) (c : Cursor) :
    (ArgumentType.text .quoted).Contract (ArgumentType.text .quoted).read context c where
  ahead_of_ok h := (ArgumentType.advances_of_read h).ahead
  slice?_of_ok h := by
    have hreads := Quoted.reads_read context c
    rw [h] at hreads
    cases hreads with
    | @closed written text rest hrest hunits =>
      -- the text ends with the closing quote, whatever stands behind it in the line
      refine ⟨Quoted.quote :: written ++ [Quoted.quote], ?_, fun other => ?_⟩
      · exact Cursor.slice?_spanTo (by simpa using hrest) (List.append_assoc _ _ _)
      · refine (Quoted.Reads.closed ?_ hunits).read_eq other
        exact String.toList_ofList
  exists_ok htext := by simp at htext
  ahead_of_error h := (ArgumentType.refusal_of_read rfl h).advances.ahead
  place_eq hscalar := by cases hscalar
  read_front front := ArgumentType.local_of_builtIn rfl context ⟨front, c.rest⟩
  read_append _ value after h hend more := by
    have hreads := Quoted.reads_read context c
    rw [h] at hreads
    cases hreads with
    | @closed written text rest hrest hunits =>
      obtain rfl : rest = [] := hend
      refine (Quoted.Reads.closed ?_ hunits).read_eq context
      rw [Cursor.append, hrest]
      simp

namespace ArgumentType

/-- **The types at hand keep the contract**, however floating-point numbers are converted. -/
theorem contract_of_isBuiltIn {type : ArgumentType} (h : type.isBuiltIn = true)
    (convert : FloatKind → List Char → Option Binary) (context : Context) (c : Cursor) :
    type.Contract (type.readWith convert) context c := by
  cases type with
  | integer kind bounds =>
    have hread := NumberDomain.read_eq_readRun kind.domain bounds
    exact contract_of_readRun (fun _ => hread) (fun _ => rfl) (by simp) context
  | floating kind bounds =>
    have hread := NumberDomain.read_eq_readRun { kind.domain with read? := convert kind } bounds
    exact contract_of_readRun (fun _ => hread) (fun _ => rfl) (by simp) context
  | text mode =>
    cases mode with
    | word =>
      exact contract_of_readRun (fun _ => readWord_eq_readRun) (fun _ => by decide) (fun _ => rfl)
        context
    | greedy =>
      exact contract_of_readRun (fun _ => readGreedy_eq_readRun) (absurd rfl) (fun _ => rfl) context
    | quoted => exact contract_quoted context c
  | boolean =>
    exact contract_of_readRun (fun _ => readBoolean_eq_readRun) (fun _ => by decide) (by simp) context
  | custom type => cases h

/-- A quoted text at the end of a line, with a character of two bytes and an escaped quote. -/
theorem contract_of_isBuiltIn_escaped :
    let c : Cursor := ⟨"say ".toList, "\"é\\\"\"".toList⟩
    let after : Cursor := ⟨"say \"é\\\"\"".toList, []⟩
    (text .quoted).isBuiltIn = true ∧
      (text .quoted).readWith FloatKind.read? .empty c = .ok (.text "é\"", after) ∧
      (text .quoted).Contract ((text .quoted).readWith FloatKind.read?) .empty c ∧
      (text .quoted).readWith FloatKind.read? .empty (c.append (separator :: "\"".toList)) =
        .ok (.text "é\"", after.append (separator :: "\"".toList)) ∧
      c.spanTo after = ⟨4, 10⟩ := by
  intro c after
  have hread : (text .quoted).readWith FloatKind.read? .empty c = .ok (.text "é\"", after) := by
    cbv
  have hcontract : (text .quoted).Contract ((text .quoted).readWith FloatKind.read?) .empty c :=
    contract_of_isBuiltIn rfl FloatKind.read? .empty c
  have hgreedy : text .quoted ≠ text .greedy := by simp
  exact ⟨rfl, hread, hcontract, hcontract.read_append hgreedy hread rfl _, by decide⟩

end ArgumentType

end CommandGrammar
