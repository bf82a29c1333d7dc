import CommandGrammar.Proofs.Match.Written

/-!
# The grammar of quoted texts

Between its quotes a quoted text is a sequence of units, each of which stands for one character: a
character that is neither a quote nor a backslash stands for itself, and a quote or a backslash is
written with a backslash before it (`Quoted.Units`). However a text goes on, it begins with units,
and where they end one of four things stands (`Quoted.Halt`): nothing, a backslash with nothing
behind it, a quote, or a backslash before a character that cannot be escaped.

Main statement: which of them it is decides what reading gives, and where it stops
(`ArgumentType.read_quoted`).
-/

namespace CommandGrammar

namespace Quoted

/-- The units of a quoted text, and the text that they stand for. -/
inductive Units : List Char → List Char → Prop where
  /-- No unit stands for no character. -/
  | nil : Units [] []
  /-- A character that is neither a quote nor a backslash stands for itself. -/
  | plain {c : Char} {written text : List Char} : c ≠ quote → c ≠ escape → Units written text →
      Units (c :: written) (c :: text)
  /-- A backslash and a quote or a backslash stand for the latter. -/
  | escaped {c : Char} {written text : List Char} : c = quote ∨ c = escape → Units written text →
      Units (escape :: c :: written) (c :: text)

/-- What stands where units end. -/
inductive Halt : List Char → Prop where
  /-- The end of the line. -/
  | finish : Halt []
  /-- A backslash at the end of the line. -/
  | loneEscape : Halt [escape]
  /-- A quote. -/
  | closed (rest : List Char) : Halt (quote :: rest)
  /-- A backslash before a character that cannot be escaped. -/
  | badEscape {d : Char} (rest : List Char) : d ≠ quote → d ≠ escape → Halt (escape :: d :: rest)

theorem isEscaped_iff {c : Char} : isEscaped c = true ↔ c = quote ∨ c = escape := by
  simp [isEscaped]

theorem isEscaped_eq_false_iff {c : Char} : isEscaped c = false ↔ c ≠ quote ∧ c ≠ escape := by
  simp [isEscaped]

/-- Every text begins with units, up to where they end. -/
theorem exists_units (s : List Char) :
    ∃ written text rest, s = written ++ rest ∧ Units written text ∧ Halt rest := by
  fun_induction scanBody s with
  | case1 => exact ⟨[], [], [], rfl, .nil, .finish⟩
  | case2 s => exact ⟨[], [], _, rfl, .nil, .closed s⟩
  | case3 => exact ⟨[], [], _, rfl, .nil, .loneEscape⟩
  | case4 d s hd _ ih =>
    obtain ⟨written, text, rest, rfl, hunits, hhalt⟩ := ih
    exact ⟨_, _, rest, rfl, hunits.escaped (isEscaped_iff.1 hd), hhalt⟩
  | case5 d s hd =>
    obtain ⟨hquote, hescape⟩ := isEscaped_eq_false_iff.1 (Bool.not_eq_true _ ▸ hd)
    exact ⟨[], [], _, rfl, .nil, .badEscape s hquote hescape⟩
  | case6 c s hquote hescape ih =>
    obtain ⟨written, text, rest, rfl, hunits, hhalt⟩ := ih
    exact ⟨_, _, rest, rfl, hunits.plain hquote hescape, hhalt⟩

/-- The scan of a text behind `count` characters that stand for another text. -/
def Scan.behind (text : List Char) (count : Nat) (scan : Scan) : Scan :=
  ⟨scan.outcome.map (text ++ ·), count + scan.length⟩

theorem Scan.cons_behind (c : Char) (text : List Char) (count more : Nat) (scan : Scan) :
    (scan.behind text count).cons c more = scan.behind (c :: text) (count + more) := by
  obtain ⟨_ | content, length⟩ := scan <;>
    simp [cons, behind, Except.map, Nat.add_comm, Nat.add_left_comm]

/-- Units are read one after the other, whatever stands behind them. -/
theorem Units.scanBody_append {written text : List Char} (h : Units written text)
    (rest : List Char) :
    scanBody (written ++ rest) = (scanBody rest).behind text written.length := by
  induction h with
  | nil =>
    rcases hscan : scanBody rest with ⟨_ | content, length⟩ <;>
      simp [hscan, Scan.behind, Except.map]
  | @plain c written text hquote hescape _ ih =>
    rw [List.cons_append, scanBody_plain (isEscaped_eq_false_iff.2 ⟨hquote, hescape⟩), ih,
      Scan.cons_behind, List.length_cons]
  | escaped hc _ ih =>
    rw [List.cons_append, List.cons_append, scanBody_escaped (isEscaped_iff.2 hc), ih,
      Scan.cons_behind, List.length_cons, List.length_cons]

theorem Units.scanBody_closed {written text : List Char} (h : Units written text)
    (rest : List Char) : scanBody (written ++ quote :: rest) = ⟨.ok text, written.length + 1⟩ := by
  rw [h.scanBody_append, scanBody_quote]
  simp [Scan.behind, Except.map]

theorem Units.scanBody_badEscape {written text rest : List Char} {d : Char}
    (h : Units written text) (hquote : d ≠ quote) (hescape : d ≠ escape) :
    scanBody (written ++ escape :: d :: rest) = ⟨.error (.badEscape d), written.length + 1⟩ := by
  have hne : escape ≠ quote := by decide
  rw [h.scanBody_append]
  simp [scanBody, hne, isEscaped_eq_false_iff.2 ⟨hquote, hescape⟩, Scan.behind, Except.map]

theorem Units.scanBody_finish {written text : List Char} (h : Units written text) :
    scanBody written = ⟨.error .unclosed, written.length⟩ := by
  have hscan := h.scanBody_append []
  rwa [List.append_nil] at hscan

theorem Units.scanBody_loneEscape {written text : List Char} (h : Units written text) :
    scanBody (written ++ [escape]) = ⟨.error .unclosed, written.length + 1⟩ := by
  rw [h.scanBody_append]
  rfl

/-- What reading a quoted text at a place gives: the text and the place behind the closing quote, or
an error where the text stops being one. -/
inductive Reads (c : Cursor) : Reading Value → Prop where
  /-- Units stand between two quotes. -/
  | closed {written text rest : List Char} : c.rest = quote :: written ++ quote :: rest →
      Units written text →
      Reads c (.ok (.text (String.ofList text), ⟨c.consumed ++ quote :: written ++ [quote], rest⟩))
  /-- No quote stands there. -/
  | notOpened : c.rest.head? ≠ some quote → Reads c (.error ⟨.expectedOpeningQuote, c⟩)
  /-- Behind a quote and units a character stands that cannot be escaped, behind a backslash. -/
  | badEscape {written text rest : List Char} {d : Char} :
      c.rest = quote :: written ++ escape :: d :: rest → Units written text → d ≠ quote →
      d ≠ escape →
      Reads c (.error ⟨.invalidEscape d, ⟨c.consumed ++ quote :: written ++ [escape], d :: rest⟩⟩)
  /-- Behind a quote and units the line ends, perhaps with one more backslash. -/
  | notClosed {written text : List Char} :
      c.rest = quote :: written ∨ c.rest = quote :: written ++ [escape] → Units written text →
      Reads c (.error ⟨.expectedClosingQuote, ⟨c.line, []⟩⟩)

/-- At every place there is something to be read, if only an error. -/
theorem exists_reads (c : Cursor) : ∃ r, Reads c r := by
  by_cases hquote : c.rest.head? = some quote
  · obtain ⟨body, hbody⟩ := List.head?_eq_some_iff.1 hquote
    obtain ⟨written, text, rest, rfl, hunits, hhalt⟩ := exists_units body
    cases hhalt with
    | finish => exact ⟨_, .notClosed (.inl (by simpa using hbody)) hunits⟩
    | loneEscape => exact ⟨_, .notClosed (.inr hbody) hunits⟩
    | closed rest => exact ⟨_, .closed hbody hunits⟩
    | badEscape rest hd hd' => exact ⟨_, .badEscape hbody hunits hd hd'⟩
  · exact ⟨_, .notOpened hquote⟩

end Quoted

/-! ### Reading -/

/-- Behind an opening quote the rest is scanned. -/
theorem readQuoted_of_scanBody {c : Cursor} {body : List Char} {scan : Quoted.Scan}
    (hrest : c.rest = Quoted.quote :: body) (hscan : Quoted.scanBody body = scan) :
    readQuoted c = match scan.outcome with
      | .ok content => .ok (String.ofList content, c.advance (1 + scan.length))
      | .error .unclosed => (c.advance (1 + scan.length)).fail .expectedClosingQuote
      | .error (.badEscape d) => (c.advance (1 + scan.length)).fail (.invalidEscape d) := by
  have hpeek : c.peek = some Quoted.quote := by rw [Cursor.peek, hrest]; rfl
  have hbody : body = c.rest.drop 1 := by simp [hrest]
  subst hbody hscan
  exact if_pos hpeek

/-- Passing an opening quote, units and some more text. -/
theorem Cursor.advance_quoted {c : Cursor} {written rest : List Char} (more : List Char)
    (h : c.rest = Quoted.quote :: written ++ (more ++ rest)) :
    c.advance (1 + (written.length + more.length)) =
      ⟨c.consumed ++ Quoted.quote :: written ++ more, rest⟩ := by
  have hlength : 1 + (written.length + more.length) = (Quoted.quote :: written ++ more).length := by
    simp only [List.length_append, List.length_cons]
    omega
  rw [hlength, Cursor.advance_length (h.trans (List.append_assoc _ _ _).symm), List.append_assoc]

theorem Quoted.Reads.read_eq {c : Cursor} {r : Reading Value} (h : Quoted.Reads c r)
    (context : Context) : (ArgumentType.text .quoted).read context c = r := by
  rw [ArgumentType.read]
  cases h with
  | closed hrest hunits =>
    rw [readQuoted_of_scanBody hrest (hunits.scanBody_closed _),
      ← Cursor.advance_quoted [Quoted.quote] hrest]
    rfl
  | notOpened hquote =>
    have hpeek : c.peek ≠ some Quoted.quote := hquote
    rw [readQuoted, if_neg hpeek]
    rfl
  | badEscape hrest hunits hd hd' =>
    rw [readQuoted_of_scanBody hrest (hunits.scanBody_badEscape hd hd'),
      ← Cursor.advance_quoted [Quoted.escape] hrest]
    rfl
  | @notClosed written _ hrest hunits =>
    have hend : ∀ {count}, count = c.rest.length → c.advance count = ⟨c.line, []⟩ := by
      rintro count rfl
      exact Cursor.advance_length (List.append_nil _).symm
    rcases hrest with hrest | hrest
    · have hcount : 1 + written.length = c.rest.length := by
        rw [hrest, List.length_cons, Nat.add_comm]
      rw [readQuoted_of_scanBody hrest hunits.scanBody_finish, ← hend hcount]
      rfl
    · have hcount : 1 + (written.length + 1) = c.rest.length := by
        rw [hrest, List.length_append, List.length_cons, Nat.add_comm]
        rfl
      rw [readQuoted_of_scanBody hrest hunits.scanBody_loneEscape, ← hend hcount]
      rfl

theorem Quoted.reads_read (context : Context) (c : Cursor) :
    Quoted.Reads c ((ArgumentType.text .quoted).read context c) := by
  obtain ⟨r, hr⟩ := Quoted.exists_reads c
  exact hr.read_eq context ▸ hr

/-- **What reading a quoted text gives.** It is the text that the units behind the opening quote
stand for, up to the first quote that is not one of them, with the place behind that quote. It is an
error at the place itself without an opening quote, at the first character that stands behind a
backslash and cannot be escaped, and otherwise at the end of the line. In particular the quoted form
of a text is read as that text, and leaves whatever stands behind it. -/
theorem ArgumentType.read_quoted (context : Context) (c : Cursor) :
    (∀ r, (ArgumentType.text .quoted).read context c = r ↔ Quoted.Reads c r) ∧
    ∀ text tail, c.rest = Quoted.write text ++ tail → ∃ after,
      (ArgumentType.text .quoted).read context c = .ok (.text (String.ofList text), after) ∧
        after.rest = tail := by
  refine ⟨fun r => ⟨?_, fun h => h.read_eq context⟩, fun text tail => ArgumentType.readsAs_quoted c⟩
  rintro rfl
  obtain ⟨r, hr⟩ := Quoted.exists_reads c
  exact hr.read_eq context ▸ hr

/-- A line feed is not written as `\n`, and the character before it has two bytes. -/
theorem ArgumentType.read_quoted_lineFeed :
    (ArgumentType.text .quoted).read .empty ⟨"say ".toList, "\"é\\n\"".toList⟩ =
        .error ⟨.invalidEscape 'n', ⟨"say \"é\\".toList, "n\"".toList⟩⟩ ∧
      (⟨"say \"é\\".toList, "n\"".toList⟩ : Cursor).index = 8 ∧
      "\"a\\\"b\" c".toList = Quoted.write "a\"b".toList ++ " c".toList ∧
      ∃ after, (ArgumentType.text .quoted).read .empty (.atStart "\"a\\\"b\" c") =
        .ok (.text (String.ofList "a\"b".toList), after) ∧ after.rest = " c".toList := by
  have hrest : (⟨"say ".toList, "\"é\\n\"".toList⟩ : Cursor).rest =
      Quoted.quote :: ['é'] ++ Quoted.escape :: 'n' :: ['"'] := by
    decide
  have hunits : Quoted.Units ['é'] ['é'] := .plain (by decide) (by decide) .nil
  refine ⟨((ArgumentType.read_quoted _ _).1 _).2 ?_, by decide, by decide,
    (ArgumentType.read_quoted _ _).2 _ _ (by decide)⟩
  exact .badEscape hrest hunits (by decide) (by decide)

end CommandGrammar
