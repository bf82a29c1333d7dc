import CommandGrammar.Proofs.Dispatcher.Run
import CommandGrammar.Proofs.Match.Refusal

/-!
# Where a line is refused

The message of an error shows the line up to the place of the error. This module says where that is
(`Tree.WellPlaced`): on the line, between two of its characters, and not before the place from which
it is read.

Main statement: every error with which a dispatcher refuses a line is well placed, whatever types at
hand its arguments have (`Dispatcher.wellPlaced_of_isBuiltIn`). A number or a truth value is refused
where it begins, and a missing separator where the value of an argument ends.

What a search refuses lies behind the place from which it reads, and every search reads on behind
the one that has started it. So the errors of the types decide where the errors of a line are.
-/

namespace CommandGrammar

variable {κ : Type}

/-- The text of the line up to a place is what was read there. -/
theorem Cursor.slice?_of_advances {c d : Cursor} (h : c.Advances d) :
    c.slice? ⟨0, d.index⟩ = some d.consumed := by
  have hline : (⟨[], c.line⟩ : Cursor).rest = d.consumed ++ d.rest := h.line_eq.symm
  exact Cursor.slice?_spanTo hline rfl

namespace Tree

variable {tree : Tree κ} {context : Context} {c : Cursor} {e : ParseError}

/-- An argument refuses a line that is read from a place on, for what begins where the error is. -/
def ValueRefused (tree : Tree κ) (context : Context) (c : Cursor) (e : ParseError) : Prop :=
  ∃ p a, tree.Reaches context (.start context c) p ∧ tree.Raises context p a e ∧
    p.cursor = e.place ∧ a.type.read context e.place = .error e ∧ Refusal e.place e

/-- On a line that is read from a place on, an argument has read a value that ends where the error
is, and another character than a separator follows. -/
def SeparatorMissing (tree : Tree κ) (context : Context) (c : Cursor) (e : ParseError) : Prop :=
  ∃ p a value next, tree.Reaches context (.start context c) p ∧ tree.Raises context p a e ∧
    a.type.read context p.cursor = .ok (value, e.place) ∧ e.place.peek = some next ∧
    next ≠ separator

/-- An error lies where it should if a line is read from a place on. -/
structure WellPlaced (tree : Tree κ) (context : Context) (c : Cursor) (e : ParseError) : Prop where
  /-- It has the whole line. -/
  line : e.line = String.ofList c.line
  /-- It does not lie before the place from which the line is read. -/
  start_le : c.index ≤ e.index
  /-- It does not lie behind the line. -/
  le_stop : e.index ≤ byteLength c.line
  /-- It lies between two characters, and the message shows the line up to there. -/
  shown : ∃ front, c.slice? ⟨0, e.index⟩ = some front ∧
    e.message = s!"{e.cause.message} at position {e.index}: '{String.ofList front}'"
  /-- A number or a truth value is refused where it begins. -/
  value : e.cause.isOfValue = true → tree.ValueRefused context c e
  /-- A separator is missing where the value of an argument ends. -/
  incomplete : e.cause = .incompleteParse → tree.SeparatorMissing context c e

/-- An error on the way is well placed, if it is about a value or a separator only where it may. -/
theorem wellPlaced_of_advances (h : c.Advances e.place)
    (hvalue : e.cause.isOfValue = true → tree.ValueRefused context c e)
    (hincomplete : e.cause = .incompleteParse → tree.SeparatorMissing context c e) :
    tree.WellPlaced context c e :=
  ⟨congrArg String.ofList h.line_eq, h.index_le, h.line_eq ▸ e.place.index_le,
    ⟨e.place.consumed, Cursor.slice?_of_advances h, rfl⟩, hvalue, hincomplete⟩

/-- **The errors of a search are well placed.** -/
theorem wellPlaced_of_blames (hb : tree.isBuiltIn = true) {p : Search}
    (hp : tree.Reaches context (.start context c) p) (h : tree.Blames context p e) :
    tree.WellPlaced context c e := by
  have hadvances := hp.advances
  cases h with
  | @refused a _ hraises hread =>
    have hbuiltIn : a.type.isBuiltIn = true := by
      obtain ⟨child, -, hk, -⟩ := hraises.step
      exact isBuiltIn_of_kind? hb hk
    have hrefusal := ArgumentType.refusal_of_read hbuiltIn hread
    refine wellPlaced_of_advances (hadvances.trans hrefusal.advances) (fun hv => ?_) fun hi =>
      absurd hi hrefusal.cause_ne_incompleteParse
    have hplace := hrefusal.place_eq hv
    rw [← hplace] at hread hrefusal
    exact ⟨p, a, hp, hraises, hplace.symm, hread, hrefusal⟩
  | @unseparated a value after next hraises hread hpeek hnext =>
    have hafter := ArgumentType.advances_of_read hread
    exact wellPlaced_of_advances (hadvances.trans hafter) nofun fun _ =>
      ⟨p, a, value, next, hp, hraises, hread, hpeek, hnext⟩

end Tree

namespace Dispatcher

variable {d : Dispatcher κ} {context : Context} {c : Cursor} {m : Match} {e : ParseError}

/-- A match is refused where it ends. -/
theorem place_of_selectMatch (h : d.selectMatch m = .error (.parse e)) :
    e.place = m.cursor ∧ (e.cause = .unknownCommand ∨ e.cause = .unknownArgument) := by
  unfold selectMatch at h
  split at h
  · cases h
    refine ⟨rfl, ?_⟩
    cases m.trail.literals.isEmpty
    · exact .inr rfl
    · exact .inl rfl
  · split at h
    · cases h
    · split at h
      · cases h
        exact ⟨rfl, .inr rfl⟩
      · cases h

theorem wellPlaced_of_unknown (h : c.Advances e.place)
    (hcause : e.cause = .unknownCommand ∨ e.cause = .unknownArgument) :
    d.tree.WellPlaced context c e := by
  obtain ⟨cause, place⟩ := e
  rcases hcause with rfl | rfl
  · exact Tree.wellPlaced_of_advances h nofun nofun
  · exact Tree.wellPlaced_of_advances h nofun nofun

theorem wellPlaced_of_matchAt (h : d.Reachable) (hb : d.tree.isBuiltIn = true)
    (hm : d.tree.matchAt context c = .error (.parse e)) : d.tree.WellPlaced context c e := by
  obtain ⟨p, hp, hblames⟩ := Tree.exists_blames (q := .start context c) h.tree.wellFormed hm
  exact Tree.wellPlaced_of_blames hb hp hblames

theorem wellPlaced_of_selectMatch (h : d.Reachable)
    (hp : d.tree.matchAt context c = .ok (some m)) (hm : d.selectMatch m = .error (.parse e)) :
    d.tree.WellPlaced context c e := by
  obtain ⟨visits, hx⟩ := Tree.exists_explains h.tree.wellFormed hp
  obtain ⟨hplace, hcause⟩ := place_of_selectMatch hm
  exact wellPlaced_of_unknown (hplace ▸ hx.path.advances) hcause

theorem wellPlaced_of_select (h : d.Reachable) (hb : d.tree.isBuiltIn = true) {line : String}
    (hs : d.select context line = .error (.parse e)) :
    d.tree.WellPlaced context (.atStart line) e := by
  unfold select at hs
  split at hs
  · rename_i failure hp
    cases hs
    exact wellPlaced_of_matchAt h hb hp
  · cases hs
    exact wellPlaced_of_unknown (.refl _) (.inl rfl)
  · rename_i m hp
    exact wellPlaced_of_selectMatch h hp hs

/-- **Every error is well placed.** If all arguments are of types at hand, then the errors of
matching a line from any place on are well placed, and so are those of selecting the command of a
match and of executing a line, unless the command itself fails with one. -/
theorem wellPlaced_of_isBuiltIn (h : d.Reachable) (hb : d.tree.isBuiltIn = true)
    (context : Context) :
    (∀ c e, d.tree.matchAt context c = .error (.parse e) → d.tree.WellPlaced context c e) ∧
    (∀ c m e, d.tree.matchAt context c = .ok (some m) → d.selectMatch m = .error (.parse e) →
      d.tree.WellPlaced context c e) ∧
    ∀ {σ : Type} (run : κ → Bindings → Action σ Unit) line (s : σ) e,
      ((d.execute run context line).run.run s).1 = .error (.parse e) →
        d.tree.WellPlaced context (.atStart line) e ∨
        ∃ command bindings, d.select context line = .ok (some (command, bindings)) ∧
          ((run command bindings).run.run s).1 = .error (.parse e) := by
  refine ⟨fun c e hm => wellPlaced_of_matchAt h hb hm,
    fun c m e hp hm => wellPlaced_of_selectMatch h hp hm, ?_⟩
  intro σ run line s e he
  rw [execute] at he
  cases hs : d.select context line with
  | error failure =>
    rw [hs] at he
    cases show Except.error failure = Except.error (.parse e) from he
    exact .inl (wellPlaced_of_select h hb hs)
  | ok selected =>
    rw [hs] at he
    rcases selected with _ | ⟨command, bindings⟩
    · cases he
    · exact .inr ⟨command, bindings, rfl, he⟩

/-- A number that is at most ten. -/
def atMostTen : Argument :=
  ⟨⟨"number", 0⟩, .integer .byte ((IntegerKind.domain .byte).bounds none (some 10))⟩

/-- `ö`, and below it such a number. -/
def upToTen : Except Violation (Dispatcher Unit) := do
  let ö ← (literal "ö").child (argument atMostTen).toSpec
  let (d, _) ← ({} : Dispatcher Unit).register ö
  return d

theorem reachable_of_upToTen {d : Dispatcher Unit} (h : upToTen = .ok d) : d.Reachable := by
  obtain ⟨ö, hö, h⟩ := exists_of_bind_eq_ok h
  obtain ⟨⟨d₁, _⟩, h₁, h⟩ := exists_of_bind_eq_ok h
  cases h
  have hö := (CommandDraft.Drafted.literal "ö").child (.command (.argument _)) hö
  exact (Reachable.start {}).register hö h₁

/-- The literal takes two bytes. A number is refused behind it and the space, and a letter where the
number before it ends. -/
theorem wellPlaced_of_isBuiltIn_upToTen :
    ∃ (d : Dispatcher Unit) (tooHigh incomplete : ParseError), upToTen = .ok d ∧ d.Reachable ∧
      d.tree.isBuiltIn = true ∧ d.parse .empty "ö 11" = .error (.parse tooHigh) ∧
      tooHigh.index = 3 ∧ d.tree.WellPlaced .empty (.atStart "ö 11") tooHigh ∧
      d.tree.ValueRefused .empty (.atStart "ö 11") tooHigh ∧
      d.parse .empty "ö 7ü" = .error (.parse incomplete) ∧ incomplete.index = 4 ∧
      d.tree.WellPlaced .empty (.atStart "ö 7ü") incomplete ∧
      d.tree.SeparatorMissing .empty (.atStart "ö 7ü") incomplete := by
  have htree : upToTen.map (fun d => d.tree.isBuiltIn) = .ok true := by
    decide +kernel
  have hrun : upToTen.map (fun d => (d.parse .empty "ö 11", d.parse .empty "ö 7ü")) =
      .ok (.error (.parse ⟨.numberTooHigh (.integer .byte 10) (.integer .byte 11),
          ⟨['ö', ' '], ['1', '1']⟩⟩),
        .error (.parse ⟨.incompleteParse, ⟨['ö', ' ', '7'], ['ü']⟩⟩)) := by
    cbv
  obtain ⟨d, h, hb⟩ := exists_of_map_eq_ok htree
  rw [h] at hrun
  obtain ⟨htooHigh, hincomplete⟩ := Prod.mk.inj (Except.ok.inj hrun)
  have hreach := reachable_of_upToTen h
  obtain ⟨hplaced, -⟩ := wellPlaced_of_isBuiltIn hreach hb .empty
  exact ⟨d, _, _, h, hreach, hb, htooHigh, by decide, hplaced _ _ htooHigh,
    (hplaced _ _ htooHigh).value rfl, hincomplete, by decide, hplaced _ _ hincomplete,
    (hplaced _ _ hincomplete).incomplete rfl⟩

end Dispatcher

end CommandGrammar
