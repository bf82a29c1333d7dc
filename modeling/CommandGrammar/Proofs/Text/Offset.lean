import CommandGrammar.ByteCursor
import CommandGrammar.Proofs.Text.Boundary

/-!
# Cursors as byte offsets

A `ByteCursor` may hold any offset, and what it looks up may be cut in the middle of a character. This
module shows that its own operations never get there. A place between two texts is laid out as the
line and the offset of the place (`Cursor.bytes`), and each operation on the offset has a result, which
is laid out from the result of the same operation on the place. So a run of moves on the offset is a
run of moves on the place (`Cursor.run?_bytes`).

Main statement: from the start of a line, every run of moves, to whatever offsets, has a result, and
leads to a cursor that is sound (`ByteCursor.Sound`): it stands at a boundary of the line, and its next
move does what the line and the offset say (`ByteCursor.exists_sound_run`).
-/

namespace CommandGrammar

/-! ### Where a text stands in a line -/

namespace ByteCursor

theorem boundaryAt_iff {line : String} {offset : Nat} :
    boundaryAt line offset = true ↔ IsBoundary line offset :=
  String.Pos.Raw.isValid_eq_true_iff

/-- The bytes between the lengths of two fronts are those of the text between them. -/
theorem extract_toByteArray (front text back : List Char) :
    (String.ofList (front ++ text ++ back)).toByteArray.extract (byteLength front)
      (byteLength (front ++ text)) = (String.ofList text).toByteArray := by
  have hsize (s : List Char) : byteLength s = (String.ofList s).toByteArray.size := by
    rw [byteLength_eq_utf8ByteSize, String.size_toByteArray]
  rw [byteLength_append, List.append_assoc, String.ofList_append, String.ofList_append,
    String.toByteArray_append, String.toByteArray_append, hsize front, hsize text]
  have hcut := ByteArray.extract_append_size_add (a := (String.ofList front).toByteArray)
    (b := (String.ofList text).toByteArray ++ (String.ofList back).toByteArray) (i := 0)
    (j := (String.ofList text).toByteArray.size)
  rw [Nat.add_zero] at hcut
  rw [hcut, ByteArray.extract_append_eq_left rfl]

/-- A text of the line is found by the bytes in front of it and those up to its end. -/
theorem slice?_eq_some_iff {c : ByteCursor} {span : Span} {text : String} :
    c.slice? span = some text ↔ ∃ front back, c.input.toList = front ++ text.toList ++ back ∧
      byteLength front = span.start ∧ byteLength (front ++ text.toList) = span.stop := by
  rw [slice?_eq_some, boundaryAt_iff, boundaryAt_iff, isBoundary_iff, isBoundary_iff]
  constructor
  · rintro ⟨⟨hle, ⟨front, hfront, hstart⟩, ⟨front', ⟨back, hfront'⟩, hstop⟩⟩, hbytes⟩
    -- the two fronts are nested, and the text is what the longer one has more
    have hnested : front <+: front' := by
      have := front_takeBytes hfront (by omega : byteLength front ≤ byteLength front')
      rwa [← hfront', takeBytes_byteLength_append] at this
    obtain ⟨text', rfl⟩ := hnested
    have htext := extract_toByteArray front text' back
    rw [hfront', String.ofList_toList, hstart, hstop, hbytes, String.toByteArray_inj] at htext
    rw [htext, String.toList_ofList]
    exact ⟨front, back, hfront'.symm, hstart, hstop⟩
  · rintro ⟨front, back, hline, hstart, hstop⟩
    have hle := byteLength_le_of_front (List.prefix_append front text.toList)
    have hfront : front <+: c.input.toList := by
      rw [hline, List.append_assoc]
      exact List.prefix_append _ _
    refine ⟨⟨by omega, ⟨front, hfront, hstart⟩, ⟨_, ⟨back, hline.symm⟩, hstop⟩⟩, ?_⟩
    have htext := extract_toByteArray front text.toList back
    rwa [← hline, String.ofList_toList, String.ofList_toList, hstart, hstop] at htext

/-- Going back byte by byte finds the last boundary. -/
theorem lastBoundary?_eq_some {line : String} {target offset : Nat}
    (h : IsGreatest {offset | IsBoundary line offset ∧ offset ≤ target} offset) :
    lastBoundary? line target = some offset := by
  obtain ⟨⟨hboundary, hle⟩, hgreatest⟩ := h
  induction target with
  | zero =>
    obtain rfl := Nat.le_zero.1 hle
    rw [lastBoundary?, if_pos (boundaryAt_iff.2 hboundary)]
  | succ target ih =>
    rw [lastBoundary?]
    split
    · rename_i htarget
      -- the target is a boundary itself, so nothing greater is wanted
      have := hgreatest ⟨boundaryAt_iff.1 htarget, le_rfl⟩
      rw [le_antisymm hle this]
    · rename_i htarget
      have hne : offset ≠ target + 1 := by
        rintro rfl
        exact htarget (boundaryAt_iff.2 hboundary)
      refine ih ?_ (by omega)
      rintro other ⟨hother, hfits⟩
      exact hgreatest ⟨hother, hfits.trans (Nat.le_succ target)⟩

end ByteCursor

/-! ### The offset of a place -/

namespace Cursor

/-- A place laid out as its line and its offset. -/
def bytes (c : Cursor) : ByteCursor := ⟨String.ofList c.line, c.index⟩

theorem bytes_input (c : Cursor) : c.bytes.input = String.ofList c.line := rfl

theorem bytes_index (c : Cursor) : c.bytes.index = c.index := rfl

/-- Places of one line are laid out apart from their offsets alike. -/
theorem bytes_eq_of_line_eq {c d : Cursor} (h : d.line = c.line) :
    d.bytes = { c.bytes with index := d.index } := by
  rw [bytes, h]
  rfl

theorem bytes_atStart (line : String) : (atStart line).bytes = ByteCursor.atStart line := by
  simp [bytes, atStart, ByteCursor.atStart, Cursor.line, index]

theorem utf8ByteSize_bytes (c : Cursor) : c.bytes.input.utf8ByteSize = byteLength c.line :=
  (byteLength_eq_utf8ByteSize _).symm

theorem fits_bytes (c : Cursor) (count : Nat) : c.bytes.fits count = c.fits count := by
  rw [ByteCursor.fits, fits, utf8ByteSize_bytes]
  rfl

theorem readable_bytes (c : Cursor) : c.bytes.readable = c.readable := by
  rw [ByteCursor.readable, readable, utf8ByteSize_bytes, line, byteLength_append]
  cases h : c.rest with
  | nil => simp [bytes, index]
  | cons next rest =>
    have := next.utf8Size_pos
    have hlt : c.index < byteLength c.consumed + byteLength (next :: rest) := by
      rw [index, byteLength_cons]
      omega
    exact decide_eq_true hlt

/-- **A text is found between two offsets just if it is found between two places.** -/
theorem slice?_bytes (c : Cursor) (span : Span) :
    c.bytes.slice? span = (c.slice? span).map String.ofList := by
  ext text
  rw [Option.map_eq_some_iff, ByteCursor.slice?_eq_some_iff]
  simp only [slice?_eq_some_iff, bytes, String.toList_ofList]
  constructor
  · rintro h
    exact ⟨text.toList, h, String.ofList_toList⟩
  · rintro ⟨text, h, rfl⟩
    rwa [String.toList_ofList]

theorem consumed?_bytes (c : Cursor) : c.bytes.consumed? = some (String.ofList c.consumed) := by
  have h : c.slice? ⟨0, c.index⟩ = some c.consumed :=
    slice?_eq_some_iff.2 ⟨[], c.rest, rfl, rfl, rfl⟩
  exact (c.slice?_bytes _).trans (congrArg _ h)

theorem remaining?_bytes (c : Cursor) : c.bytes.remaining? = some (String.ofList c.rest) := by
  have h : c.slice? ⟨c.index, byteLength c.line⟩ = some c.rest :=
    slice?_eq_some_iff.2 ⟨c.consumed, [], (List.append_nil _).symm, rfl, rfl⟩
  rw [ByteCursor.remaining?, utf8ByteSize_bytes, slice?_bytes]
  exact congrArg _ h

theorem peek?_bytes (c : Cursor) : c.bytes.peek? = some c.peek := by
  rw [ByteCursor.peek?, remaining?_bytes, Option.map_some, String.toList_ofList, peek]

/-- Adding the bytes of the next character leads behind it. -/
theorem pass_bytes {c : Cursor} {next : Char} {rest : List Char} (h : c.rest = next :: rest) :
    c.bytes.pass next = (c.advance 1).bytes := by
  rw [bytes_eq_of_line_eq (c.advance_line 1), ByteCursor.pass, bytes_index]
  simp [index, advance, h]

/-- Behind the last character there is nowhere to go. -/
theorem advance_of_rest_eq_nil {c : Cursor} (h : c.rest = []) (count : Nat) :
    c.advance count = c := by
  obtain ⟨consumed, rest⟩ := c
  obtain rfl : rest = [] := h
  simp [advance]

theorem read?_bytes (c : Cursor) :
    c.bytes.read? = some (c.peek, (c.advance 1).bytes) := by
  rw [ByteCursor.read?, peek?_bytes, Option.map_some]
  cases h : c.rest with
  | nil => simp [peek, h, advance_of_rest_eq_nil h]
  | cons next rest => simp [peek, h, pass_bytes h]

theorem skip?_bytes (c : Cursor) : c.bytes.skip? = some (c.advance 1).bytes := by
  rw [ByteCursor.skip?, read?_bytes, Option.map_some]

theorem seek?_bytes (c : Cursor) (target : Nat) :
    c.bytes.seek? target = some (c.seek target).bytes := by
  have h : c.line = (String.ofList c.line).toList := String.toList_ofList.symm
  rw [ByteCursor.seek?, bytes_input,
    ByteCursor.lastBoundary?_eq_some (isGreatest_index_seek h target), Option.map_some,
    bytes_eq_of_line_eq (c.seek_line target)]
  rfl

theorem skipBytes?_bytes (c : Cursor) (count : Nat) :
    c.bytes.skipBytes? count = some (c.skipBytes count).bytes := by
  rw [skipBytes_eq_seek, ← seek?_bytes]
  rfl

/-- The loop over characters goes as far as they satisfy the predicate. -/
theorem dropWhile?_bytes (c : Cursor) (p : Char → Bool) :
    c.bytes.dropWhile? p = some (c.dropWhile p).bytes := by
  obtain ⟨consumed, rest⟩ := c
  induction rest generalizing consumed with
  | nil =>
    rw [ByteCursor.dropWhile?_of_peek?_none (peek?_bytes _)]
    simp [dropWhile]
  | cons next rest ih =>
    rw [ByteCursor.dropWhile?_of_peek?_some (peek?_bytes _)]
    split
    · rename_i hnext
      rw [pass_bytes rfl]
      refine (ih (consumed ++ [next])).trans ?_
      simp [dropWhile, hnext]
    · rename_i hnext
      simp [dropWhile, hnext]

theorem skipWhile?_bytes (c : Cursor) (p : Char → Bool) :
    c.bytes.skipWhile? p = some (c.spanTo (c.dropWhile p), (c.dropWhile p).bytes) := by
  rw [ByteCursor.skipWhile?, dropWhile?_bytes, Option.map_some]
  rfl

theorem slice?_congr {c d : Cursor} (h : c.line = d.line) (span : Span) :
    c.slice? span = d.slice? span := by
  rw [slice?, slice?, h]

/-! ### Moves -/

/-- Where a move leads from a place. Behind the last character there is nothing to read, and nothing
moves. -/
def step (c : Cursor) : ByteCursor.Move → Cursor
  | .seek target => c.seek target
  | .read => (c.read?.map Prod.snd).getD c
  | .skip => c.advance 1
  | .skipBytes count => c.skipBytes count
  | .skipWhile p => c.dropWhile p

/-- Where some moves lead from a place, one after the other. -/
def run (c : Cursor) (moves : List ByteCursor.Move) : Cursor := moves.foldl step c

theorem line_step (c : Cursor) (move : ByteCursor.Move) : (c.step move).line = c.line := by
  cases move with
  | seek target => exact c.seek_line target
  | read =>
    rw [step, read?, Option.map_map]
    cases c.peek with
    | none => rfl
    | some next => exact c.advance_line 1
  | skip => exact c.advance_line 1
  | skipBytes count => exact c.skipBytes_line count
  | skipWhile p => exact c.dropWhile_line p

theorem line_run (c : Cursor) (moves : List ByteCursor.Move) : (c.run moves).line = c.line := by
  induction moves generalizing c with
  | nil => rfl
  | cons move moves ih =>
    rw [run, List.foldl_cons]
    exact (ih (c.step move)).trans (c.line_step move)

/-- What was skipped can be looked up wherever further moves have led. -/
theorem slice?_run_dropWhile (c : Cursor) (p : Char → Bool) (moves : List ByteCursor.Move) :
    ((c.dropWhile p).run moves).slice? (c.spanTo (c.dropWhile p)) = some (c.rest.takeWhile p) := by
  rw [slice?_congr (((c.dropWhile p).line_run moves).trans (c.dropWhile_line p))]
  exact slice?_spanTo List.takeWhile_append_dropWhile.symm rfl

/-- **A move on the offset is the move on the place.** -/
theorem step?_bytes (c : Cursor) (move : ByteCursor.Move) :
    c.bytes.step? move = some (c.step move).bytes := by
  cases move with
  | seek target => exact c.seek?_bytes target
  | read =>
    rw [ByteCursor.step?, read?_bytes, Option.map_some]
    cases h : c.rest with
    | nil => simp [step, read?, peek, h, advance_of_rest_eq_nil h]
    | cons next rest => simp [step, read?, peek, h]
  | skip => exact c.skip?_bytes
  | skipBytes count => exact c.skipBytes?_bytes count
  | skipWhile p => rw [ByteCursor.step?, skipWhile?_bytes, Option.map_some]; rfl

/-- **A run on the offset is the run on the place.** -/
theorem run?_bytes (c : Cursor) (moves : List ByteCursor.Move) :
    c.bytes.run? moves = some (c.run moves).bytes := by
  induction moves generalizing c with
  | nil => rfl
  | cons move moves ih =>
    rw [ByteCursor.run?, List.foldlM_cons, step?_bytes]
    exact ih (c.step move)

end Cursor

/-! ### Sound cursors -/

namespace ByteCursor

/-- What holds of a cursor in a line. -/
structure Sound (line : String) (c : ByteCursor) : Prop where
  /-- It still has the line. -/
  input_eq : c.input = line
  /-- Its offset does not lie behind the line. -/
  index_le : c.index ≤ line.utf8ByteSize
  /-- Nor does it fall inside a character. -/
  isBoundary : IsBoundary line c.index
  /-- What was read and what is still to read can be looked up, and make up the line. -/
  consumed_append_remaining : ∃ consumed remaining, c.consumed? = some consumed ∧
    c.remaining? = some remaining ∧ consumed ++ remaining = line
  /-- Reading takes the next character off what is still to read, and skipping a character goes to the
  same place. -/
  remaining?_read? : ∃ remaining after, c.remaining? = some remaining ∧
    c.read? = some (remaining.toList.head?, after) ∧ c.skip? = some after ∧
    after.remaining? = some (String.ofList remaining.toList.tail)
  /-- Skipping characters gives the span from here to where it ends. This can be looked up later on,
  wherever further moves may have led, and its text is the longest front of what was still to read. -/
  slice?_skipWhile : ∀ p, ∃ span after, c.skipWhile? p = some (span, after) ∧
    span = ⟨c.index, after.index⟩ ∧
    ∀ moves, ∃ later remaining skipped, after.run? moves = some later ∧
      c.remaining? = some remaining ∧ later.slice? span = some skipped ∧
      IsLongestFront p remaining.toList skipped.toList
  /-- Going to an offset leads to the last boundary that is neither behind it nor behind the line. -/
  isGreatest_seek? : ∀ target, ∃ after, c.seek? target = some after ∧
    IsGreatest {offset | IsBoundary line offset ∧ offset ≤ min target line.utf8ByteSize} after.index
  /-- Skipping some bytes leads to the last boundary that is at most so many bytes further. -/
  isGreatest_skipBytes? : ∀ count, ∃ after, c.skipBytes? count = some after ∧
    IsGreatest {offset | IsBoundary line offset ∧
      offset ≤ min (c.index + count) line.utf8ByteSize} after.index
  /-- Going to a greater offset does not lead further in front. -/
  monotone_seek? : ∀ target target', target ≤ target' → ∃ after after', c.seek? target = some after ∧
    c.seek? target' = some after' ∧ after.index ≤ after'.index
  /-- Going to the same offset again leads nowhere else, nor does going to where one has got to. -/
  idempotent_seek? : ∀ target, ∃ after, c.seek? target = some after ∧
    after.seek? target = some after ∧ after.seek? after.index = some after

/-- The offset of a place of the line is sound in it. -/
theorem sound_bytes {line : String} {c : Cursor} (h : c.line = line.toList) :
    c.bytes.Sound line where
  input_eq := by rw [Cursor.bytes_input, h, String.ofList_toList]
  index_le := (Cursor.isBoundary_index h).le
  isBoundary := Cursor.isBoundary_index h
  consumed_append_remaining :=
    ⟨_, _, c.consumed?_bytes, c.remaining?_bytes, by
      rw [← String.ofList_append, ← Cursor.line, h, String.ofList_toList]⟩
  remaining?_read? := by
    refine ⟨_, _, c.remaining?_bytes, ?_, c.skip?_bytes, ?_⟩
    · rw [Cursor.read?_bytes, String.toList_ofList, Cursor.peek]
    · rw [Cursor.remaining?_bytes, String.toList_ofList, Cursor.advance, List.drop_one]
  slice?_skipWhile p := by
    refine ⟨_, _, c.skipWhile?_bytes p, rfl, fun moves => ⟨_, _, String.ofList (c.rest.takeWhile p),
      (c.dropWhile p).run?_bytes moves, c.remaining?_bytes, ?_, ?_⟩⟩
    · rw [Cursor.slice?_bytes, Cursor.slice?_run_dropWhile, Option.map_some]
    · rw [String.toList_ofList, String.toList_ofList]
      exact isLongestFront_takeWhile p c.rest
  isGreatest_seek? target := ⟨_, c.seek?_bytes target, Cursor.isGreatest_index_seek h target⟩
  isGreatest_skipBytes? count := by
    refine ⟨_, c.skipBytes?_bytes count, ?_⟩
    rw [c.skipBytes_eq_seek]
    exact Cursor.isGreatest_index_seek h (c.index + count)
  monotone_seek? target target' hle :=
    ⟨_, _, c.seek?_bytes target, c.seek?_bytes target', Cursor.monotone_index_seek h hle⟩
  idempotent_seek? target := by
    refine ⟨_, c.seek?_bytes target, ?_, ?_⟩
    · rw [Cursor.seek?_bytes, Cursor.seek_congr (c.seek_line target)]
    · rw [Cursor.bytes_index, Cursor.seek?_bytes, Cursor.seek_index]

/-- **Every run of moves has a result, and leads to a sound cursor.** -/
theorem exists_sound_run (line : String) (moves : List Move) :
    ∃ c, (atStart line).run? moves = some c ∧ c.Sound line := by
  have hrun := (Cursor.atStart line).run?_bytes moves
  rw [Cursor.bytes_atStart] at hrun
  exact ⟨_, hrun, sound_bytes ((Cursor.atStart line).line_run moves)⟩

/-- An offset inside a character leads to the front of it, and a text from there would be cut. -/
example : (atStart "aé b").seek? 2 = some ⟨"aé b", 1⟩ ∧ (atStart "aé b").slice? ⟨2, 4⟩ = none := by
  decide +kernel

end ByteCursor

end CommandGrammar
