import CommandGrammar.Proofs.Dispatcher.Position

/-!
# Reading from the middle of a line

A line can be read from any place on. This module says what becomes of a result for the text behind
that place when the text is read as part of the whole line: every offset moves by the bytes of the
text in front (`Match.moved`), and no other part of it changes.

Main statement: matching from the middle of a line and matching the rest of it by itself have the
same result, moved (`Dispatcher.matchAt_seek`), if all arguments are of types at hand.

Matching moves along with the text (`Tree.matchFrom_behind`), where the literals of a trail reach
from the beginning of the line. The span of the literals begins where reading begins, so it moves
along as well.
-/

namespace CommandGrammar

variable {κ : Type}

/-! ### Moving what is found -/

/-- The same trail with more text in front of the line. -/
def Trail.moved (front : List Char) (t : Trail) : Trail :=
  { t.toBindings.behind front with literals := t.literals.behind front }

/-- The same match with more text in front of the line. -/
def Match.moved (front : List Char) (m : Match) : Match :=
  ⟨m.node, m.cursor.behind front, m.trail.moved front⟩

/-- What is found, with more text in front of the line. -/
def Tree.moved (front : List Char) (found : Except Failure (Option Match)) :
    Except Failure (Option Match) :=
  (found.map (Option.map (Match.moved front))).mapError (Failure.behind front)

/-- A match says the same as another one of a line with more text in front. -/
structure Match.MovesTo (front : List Char) (m m' : Match) : Prop where
  /-- It ends at the same node. -/
  node : m'.node = m.node
  /-- It uses up the line if the other one does. -/
  isComplete : m'.isComplete = m.isComplete
  /-- It stops behind as much text more as stands in front. -/
  index : m'.cursor.index = byteLength front + m.cursor.index
  /-- It is for the same context. -/
  context : m'.trail.context = m.trail.context
  /-- The arguments have the same values. -/
  find? : ∀ a, m'.trail.find? a = m.trail.find? a
  /-- The spans of the values move. -/
  span? : ∀ a, m'.trail.span? a = (m.trail.span? a).map (Span.behind front)
  /-- The same flags are given in the same order, and their spans move. -/
  flags : m'.trail.flags = m.trail.flags.map (FlagHit.behind front)
  /-- The span of the literals moves. -/
  literals : m'.trail.literals = m.trail.literals.behind front

theorem Match.movesTo_moved (front : List Char) (m : Match) : m.MovesTo front (m.moved front) where
  node := rfl
  isComplete := rfl
  index := m.cursor.index_behind front
  context := rfl
  find? := m.trail.toBindings.find?_behind front
  span? a := by
    simp only [Bindings.span?, moved, Trail.moved, Bindings.behind, Table.find?_map]
    cases m.trail.arguments.find? a.key <;> rfl
  flags := rfl
  literals := rfl

/-- What is found on a line says the same as what is found with more text in front of it. -/
inductive Tree.MovesTo (front : List Char) :
    Except Failure (Option Match) → Except Failure (Option Match) → Prop where
  /-- Nothing matches. -/
  | unmatched : MovesTo front (.ok none) (.ok none)
  /-- There is a match. -/
  | found {m m' : Match} : m.MovesTo front m' → MovesTo front (.ok (some m)) (.ok (some m'))
  /-- The line is refused for the same cause, behind as much text more as stands in front. -/
  | refused {e e' : ParseError} : e'.cause = e.cause → e'.index = byteLength front + e.index →
      e'.place.rest = e.place.rest → MovesTo front (.error (.parse e)) (.error (.parse e'))
  /-- The line is not to blame. -/
  | broken {failure : Failure} : failure.parseError? = none →
      MovesTo front (.error failure) (.error failure)

theorem Tree.movesTo_moved (front : List Char) (found : Except Failure (Option Match)) :
    MovesTo front found (moved front found) := by
  rcases found with failure | _ | m
  · cases failure with
    | parse e => exact .refused rfl (e.place.index_behind front) rfl
    | missingValue name type => exact .broken rfl
    | action text => exact .broken rfl
    | violation breach => exact .broken rfl
  · exact .unmatched
  · exact .found (m.movesTo_moved front)

/-! ### Moving the beginning -/

/-- Behind some text of a line the rest of it begins. -/
theorem Cursor.seek_atStart (front back : String) :
    (Cursor.atStart (front ++ back)).seek (byteLength front.toList) =
      (Cursor.atStart back).behind front.toList := by
  simp only [seek, atStart, line, behind, String.toList_append, List.nil_append, List.append_nil,
    takeBytes_byteLength_append, dropBytes_byteLength_append]

/-- A trail that begins behind some text has no literal yet, not even in that text. -/
theorem Trail.start_behind (context : Context) (front : List Char) (line : String) :
    Trail.start context ((Cursor.atStart line).behind front) =
      (Trail.start context (.atStart line)).behind front (.point (byteLength front)) := by
  have hhull : Span.point (byteLength front) =
      ((Span.point 0).behind front).hull (.point (byteLength front)) := by
    simp [Span.point, Span.hull, Span.behind]
  unfold Trail.start Trail.behind
  rw [show (Cursor.atStart line).index = 0 from rfl, ← hhull, Cursor.index_behind]
  rfl

/-- Literals that begin with the line reach as far into the text in front as they are told to. -/
theorem Match.behind_eq_moved {m : Match} (h : m.trail.literals.start = 0) (front : List Char) :
    m.behind front (.point (byteLength front)) = m.moved front := by
  obtain ⟨node, cursor, bindings, start, stop⟩ := m
  obtain rfl : start = 0 := h
  have hhull : (Span.behind front ⟨0, stop⟩).hull (.point (byteLength front)) =
      Span.behind front ⟨0, stop⟩ := by
    simp [Span.point, Span.hull, Span.behind]
  simp only [Match.behind, Match.moved, Trail.behind, Trail.moved, hhull]

theorem Tree.foundBehind_eq_moved {found : Except Failure (Option Match)}
    (h : ∀ m, found = .ok (some m) → m.trail.literals.start = 0) (front : List Char) :
    foundBehind front (.point (byteLength front)) found = moved front found := by
  rcases found with failure | _ | m
  · rfl
  · rfl
  · exact congrArg (fun m => Except.ok (some m)) (Match.behind_eq_moved (h m rfl) front)

namespace Dispatcher

variable {d : Dispatcher κ}

theorem matchAt_seek_eq_moved (h : d.Reachable) (hb : d.tree.isBuiltIn = true) (context : Context)
    (front back : String) :
    d.tree.matchAt context ((Cursor.atStart (front ++ back)).seek (byteLength front.toList)) =
      Tree.moved front.toList (d.parse context back) := by
  have hstart : ∀ m, d.parse context back = .ok (some m) → m.trail.literals.start = 0 := by
    intro m hm
    obtain ⟨visits, hx⟩ := Tree.exists_explains h.tree.wellFormed hm
    exact congrArg Span.start hx.literals
  rw [Cursor.seek_atStart, Tree.matchAt, Trail.start_behind,
    Tree.matchFrom_behind (Tree.readsLocally_of_isBuiltIn hb)]
  exact Tree.foundBehind_eq_moved hstart front.toList

/-- **Reading from the middle of a line is reading the rest of it.** If all arguments are of types
at hand, then matching a line from a place on gives what matching the text behind that place gives,
moved by the text before it: no match, an error of the same cause, or a match at the same node with
the same values and flags. -/
theorem matchAt_seek (h : d.Reachable) (hb : d.tree.isBuiltIn = true) (context : Context)
    (front back : String) :
    let c := (Cursor.atStart (front ++ back)).seek (byteLength front.toList)
    d.tree.matchAt context c = Tree.moved front.toList (d.parse context back) ∧
      Tree.MovesTo front.toList (d.parse context back) (d.tree.matchAt context c) := by
  have hmoved := matchAt_seek_eq_moved h hb context front back
  refine ⟨hmoved, ?_⟩
  rw [hmoved]
  exact Tree.movesTo_moved front.toList (d.parse context back)

/-- The letter in front takes two bytes, and so every offset grows by three. -/
theorem matchAt_seek_upToTen :
    ∃ (d : Dispatcher Unit) (m : Match) (e : ParseError), upToTen = .ok d ∧ d.Reachable ∧
      d.tree.isBuiltIn = true ∧ d.parse .empty "ö 7" = .ok (some m) ∧ m.cursor.index = 4 ∧
      d.tree.matchAt .empty ((Cursor.atStart ("é " ++ "ö 7")).seek (byteLength "é ".toList)) =
        .ok (some (m.moved "é ".toList)) ∧
      (m.moved "é ".toList).cursor.index = 7 ∧
      (m.moved "é ".toList).trail.literals = ⟨3, 5⟩ ∧
      (m.moved "é ".toList).trail.span? atMostTen = some ⟨6, 7⟩ ∧
      d.parse .empty "ö 11" = .error (.parse e) ∧ e.index = 3 ∧
      d.tree.matchAt .empty ((Cursor.atStart ("é " ++ "ö 11")).seek (byteLength "é ".toList)) =
        .error (.parse (e.behind "é ".toList)) ∧
      (e.behind "é ".toList).index = 6 := by
  have htree : upToTen.map (fun d => d.tree.isBuiltIn) = .ok true := by
    decide +kernel
  have hrun : upToTen.map (fun d => (d.parse .empty "ö 7").map (Option.map fun m =>
      (m.cursor.index, m.trail.literals, m.trail.span? atMostTen))) =
        .ok (.ok (some (4, ⟨0, 2⟩, some ⟨3, 4⟩))) := by
    cbv
  have herror : upToTen.map (fun d => d.parse .empty "ö 11") =
      .ok (.error (.parse ⟨.numberTooHigh (.integer .byte 10) (.integer .byte 11),
        ⟨['ö', ' '], ['1', '1']⟩⟩)) := by
    cbv
  obtain ⟨d, h, hb⟩ := exists_of_map_eq_ok htree
  rw [h] at hrun herror
  obtain ⟨found, hp, hfound⟩ := exists_of_map_eq_ok (Except.ok.inj hrun)
  obtain ⟨m, rfl, hm⟩ := Option.map_eq_some_iff.1 hfound
  obtain ⟨hindex, hm⟩ := Prod.mk.inj hm
  obtain ⟨hliterals, hspan⟩ := Prod.mk.inj hm
  have he : d.parse .empty "ö 11" = _ := Except.ok.inj herror
  have hreach := reachable_of_upToTen h
  have hmoves := m.movesTo_moved "é ".toList
  refine ⟨d, m, _, h, hreach, hb, hp, hindex, ?_, ?_, ?_, ?_, he, by decide, ?_, by decide⟩
  · rw [(matchAt_seek hreach hb .empty "é " "ö 7").1, hp]
    rfl
  · rw [hmoves.index, hindex]
    rfl
  · rw [hmoves.literals, hliterals]
    rfl
  · rw [hmoves.span?, hspan]
    rfl
  · rw [(matchAt_seek hreach hb .empty "é " "ö 11").1, he]
    rfl

end Dispatcher

end CommandGrammar
