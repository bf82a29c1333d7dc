import CommandGrammar.CommandLine.Run
import CommandGrammar.Proofs.Store.Guests
import CommandGrammar.Proofs.Text.Lines

/-!
# The ways to run lines

Lines come from the arguments or from the input, and what becomes of them is told as text or as
data. Arguments are executed until one fails, and the input to its end. Still there is only one
sequence of reports behind all of them, that of the input (`executeAll`): the reports on arguments
are those before the first failure and that one (`executeUntilFailure_eq`), and text and data
tell of the same reports.

Main statement: `CommandLine.frontEndsAgree`, for every session, every context and all lines that the
input can hold (`IsLine`). That such lines come back from the bytes of the input as they were is
`readInput_asLines`.
-/

namespace CommandGrammar

/-- The value under a name. -/
def Json.Value.field? (name : String) : Json.Value → Option Json.Value
  | .object fields => fields.lookup name
  | _ => none

namespace CommandLine

open Store (Session)

variable {session : Session} {context : Context} {format : Format} {line : String}
  {lines others : List String} {report : Report}

/-! ### Reports -/

namespace Report

/-- Whether the line of a report failed. -/
def failed (report : Report) : Bool := report.failure?.isSome

theorem output_of_failed (h : report.failed = true) : report.output = [] := by
  obtain ⟨line, result⟩ := report
  cases result with
  | ok output => cases h
  | error failure => rfl

theorem field?_output (report : Report) :
    report.toJson.field? "output" = some (.array (report.output.map .string)) :=
  rfl

/-- The data of a report has a position exactly if the line cannot be read, and then it is the index
of the error. -/
theorem field?_position (report : Report) :
    report.toJson.field? "position" =
      (report.failure?.bind Failure.parseError?).map fun e => .number e.index := by
  obtain ⟨line, result⟩ := report
  rcases result with (e | _ | _ | _) | output <;> rfl

end Report

/-! ### Executing lines -/

theorem executeAll_cons (session : Session) (context : Context) (line : String)
    (lines : List String) :
    executeAll session context (line :: lines) = ⟨line, (session.execute context line).1⟩ ::
      executeAll (session.execute context line).2 context lines :=
  rfl

theorem executeUntilFailure_cons (session : Session) (context : Context) (line : String)
    (lines : List String) :
    executeUntilFailure session context (line :: lines) =
      if (⟨line, (session.execute context line).1⟩ : Report).failed then
        [⟨line, (session.execute context line).1⟩]
      else ⟨line, (session.execute context line).1⟩ ::
        executeUntilFailure (session.execute context line).2 context lines :=
  rfl

/-- All lines are executed on one session: each one on what the lines before it have left. -/
theorem executeAll_getElem? (session : Session) (context : Context) (lines : List String)
    (k : Nat) :
    (executeAll session context lines)[k]? = lines[k]?.map fun line =>
      ⟨line, ((session.follow ((lines.take k).map (context, ·))).execute context line).1⟩ := by
  induction lines generalizing session k with
  | nil => rfl
  | cons line lines ih =>
    rw [executeAll_cons]
    cases k with
    | zero => rfl
    | succ k =>
      rw [List.getElem?_cons_succ, List.getElem?_cons_succ, ih, List.take_succ_cons, List.map_cons,
        Session.follow_cons]

/-- **Up to the first failure, and with it, the reports are the same.** -/
theorem executeUntilFailure_eq (session : Session) (context : Context) (lines : List String) :
    executeUntilFailure session context lines =
      (executeAll session context lines).takeWhile (! ·.failed) ++
        ((executeAll session context lines).find? Report.failed).toList := by
  induction lines generalizing session with
  | nil => rfl
  | cons line lines ih =>
    rw [executeUntilFailure_cons, executeAll_cons]
    by_cases hfailed : (⟨line, (session.execute context line).1⟩ : Report).failed = true
    · simp [hfailed]
    · simp [hfailed, ih]

/-- Some executed line fails if some line of all does. -/
theorem any_executeUntilFailure (session : Session) (context : Context) (lines : List String) :
    (executeUntilFailure session context lines).any Report.failed =
      (executeAll session context lines).any Report.failed := by
  induction lines generalizing session with
  | nil => rfl
  | cons line lines ih =>
    rw [executeUntilFailure_cons, executeAll_cons, List.any_cons]
    by_cases hfailed : (⟨line, (session.execute context line).1⟩ : Report).failed = true
    · simp [hfailed]
    · simp [hfailed, ih]

/-- No line behind the first failure is executed: any others in their place come to the same. -/
theorem executeUntilFailure_take_append
    (h : (executeAll session context lines).any Report.failed = true) (others : List String) :
    executeUntilFailure session context
      (lines.take (executeUntilFailure session context lines).length ++ others) =
        executeUntilFailure session context lines := by
  induction lines generalizing session with
  | nil => cases h
  | cons line lines ih =>
    rw [executeAll_cons, List.any_cons] at h
    rw [executeUntilFailure_cons]
    by_cases hfailed : (⟨line, (session.execute context line).1⟩ : Report).failed = true
    · rw [if_pos hfailed, List.length_singleton, List.take_succ_cons, List.take_zero,
        List.singleton_append, executeUntilFailure_cons, if_pos hfailed]
    · rw [if_neg hfailed, List.length_cons, List.take_succ_cons, List.cons_append,
        executeUntilFailure_cons, if_neg hfailed, ih]
      simpa [hfailed] using h

/-- What the executed lines have written was written before the first failure. -/
theorem flatMap_output_executeUntilFailure (session : Session) (context : Context)
    (lines : List String) :
    (executeUntilFailure session context lines).flatMap Report.output =
      ((executeAll session context lines).takeWhile (! ·.failed)).flatMap Report.output := by
  rw [executeUntilFailure_eq, List.flatMap_append]
  cases hfind : (executeAll session context lines).find? Report.failed with
  | none => simp
  | some report => simp [Report.output_of_failed (List.find?_some hfind)]

/-! ### Lines as arguments -/

theorem code_runLines (session : Session) (context : Context) (format : Format)
    (lines : List String) :
    (runLines session context format lines).code =
      if (executeAll session context lines).any Report.failed then 1 else 0 := by
  rw [← any_executeUntilFailure]
  simp only [runLines]
  split
  · rename_i hnone
    rw [List.findSome?_eq_none_iff] at hnone
    rw [if_neg]
    simpa [Report.failed] using hnone
  · rename_i hsome
    obtain ⟨report, hm, hfailure⟩ := List.exists_of_findSome?_eq_some hsome
    obtain ⟨failure, hf, -⟩ := Option.map_eq_some_iff.1 hfailure
    have hfailed : report.failed = true := by rw [Report.failed, hf, Option.isSome_some]
    rw [if_pos (List.any_eq_true.2 ⟨report, hm, hfailed⟩), failed]

/-- Whether some line failed does not matter for what is written to the output. -/
theorem output_runLines (session : Session) (context : Context) (format : Format)
    (lines : List String) :
    (runLines session context format lines).output =
      match format with
      | .text => asLines ((executeUntilFailure session context lines).flatMap Report.output)
      | .json => asLine ((Json.Value.array
          ((executeUntilFailure session context lines).map Report.toJson)).pretty 0) := by
  simp only [runLines]
  split <;> rfl

/-! ### Lines of the input -/

/-- A text that a line of the input can hold: it is not empty, and nothing in it ends the line. -/
structure IsLine (line : String) : Prop where
  /-- It is not empty. -/
  ne_empty : line ≠ ""
  /-- It has no line feed in it. -/
  lineFeed : '\n' ∉ line.toList
  /-- It has no carriage return at its end. -/
  carriageReturn : line.toList.getLast? ≠ some '\r'

instance : Decidable (IsLine line) :=
  decidable_of_iff (line ≠ "" ∧ '\n' ∉ line.toList ∧ line.toList.getLast? ≠ some '\r')
    ⟨fun ⟨h, h', h''⟩ => ⟨h, h', h''⟩, fun ⟨h, h', h''⟩ => ⟨h, h', h''⟩⟩

theorem bytesOf_asLines (lines : List String) :
    bytesOf (asLines lines) = (lines.map bytesOf).flatMap (· ++ [10]) := by
  induction lines with
  | nil => rfl
  | cons line lines ih =>
    rw [asLines, List.map_cons, String.join_cons, bytesOf_append, ← asLines, ih, asLine,
      bytesOf_append]
    rfl

/-- Nothing but the line feed is cut off from a line. -/
theorem IsLine.dropWhileEnd_eq (h : IsLine line) :
    dropWhileEnd (fun c => c == '\n' || c == '\r') (asLine line).toList = line.toList := by
  rw [asLine, String.toList_append]
  refine dropWhileEnd_concat rfl fun c hc => ?_
  have hfeed : c ≠ '\n' := by
    rintro rfl
    exact h.lineFeed (List.mem_of_getLast? hc)
  have hreturn : c ≠ '\r' := by
    rintro rfl
    exact h.carriageReturn hc
  simp [hfeed, hreturn]

/-- **Lines that are fed to the program one per line are read as they are.** -/
theorem readInput_asLines (h : ∀ line ∈ lines, IsLine line) :
    readInput (splitLines 10 (asLines lines).toUTF8.toList) = (lines, true) := by
  rw [toList_toUTF8, bytesOf_asLines, splitLines_flatMap fun bytes hbytes => ?_, List.map_map]
  · induction lines with
    | nil => rfl
    | cons line lines ih =>
      rw [List.forall_mem_cons] at h
      have hbytes : bytesOf line ++ [10] = bytesOf (asLine line) := by
        rw [asLine, bytesOf_append]
        rfl
      simp only [List.map_cons, Function.comp_apply, readInput, hbytes, fromUTF8?_bytesOf, ih h.2,
        h.1.dropWhileEnd_eq, String.ofList_toList]
  · obtain ⟨line, hm, rfl⟩ := List.mem_map.1 hbytes
    rw [lineFeed_mem_bytesOf_iff]
    exact (h line hm).lineFeed

theorem runInput_asLines (h : ∀ line ∈ lines, IsLine line) (session : Session) (context : Context)
    (format : Format) :
    runInput session context format (asLines lines).toUTF8 =
      ⟨0, String.join ((executeAll session context lines).map fun report =>
          (showReport format report).output),
        String.join ((executeAll session context lines).map fun report =>
          (showReport format report).errors)⟩ := by
  have hfilter : lines.filter (! ·.isEmpty) = lines := by
    rw [List.filter_eq_self]
    intro line hm
    simpa using (h line hm).ne_empty
  rw [runInput, readInput_asLines h]
  simp only [hfilter, List.map_map, ↓reduceIte]
  rfl

theorem asLines_append (texts others : List String) :
    asLines (texts ++ others) = asLines texts ++ asLines others := by
  rw [asLines, List.map_append, String.join_append, asLines, asLines]

/-- As text a report shows what was written, or why the line failed. -/
theorem showReport_text (report : Report) :
    showReport .text report = ⟨0, asLines report.output,
      (report.failure?.map fun failure => errorLine failure.message).getD ""⟩ := by
  obtain ⟨line, result⟩ := report
  cases result <;> rfl

theorem join_output_text (reports : List Report) :
    String.join (reports.map fun report => (showReport .text report).output) =
      asLines (reports.flatMap Report.output) := by
  induction reports with
  | nil => rfl
  | cons report reports ih =>
    rw [List.map_cons, String.join_cons, ih, showReport_text, List.flatMap_cons, asLines_append]

theorem join_errors_text (reports : List Report) :
    String.join (reports.map fun report => (showReport .text report).errors) =
      String.join (reports.filterMap fun report =>
        report.failure?.map fun failure => errorLine failure.message) := by
  induction reports with
  | nil => rfl
  | cons report reports ih =>
    rw [List.map_cons, String.join_cons, ih, showReport_text, List.filterMap_cons]
    cases report.failure? with
    | none => exact String.empty_append
    | some failure => exact (String.join_cons ..).symm

theorem join_errors_json (reports : List Report) :
    String.join (reports.map fun report => (showReport .json report).errors) = "" := by
  induction reports with
  | nil => rfl
  | cons report reports ih =>
    rw [List.map_cons, String.join_cons, ih]
    rfl

/-! ### All together -/

/-- What the ways to run some lines have to do with each other. -/
structure FrontEndsAgree (session : Session) (context : Context) (lines : List String) : Prop where
  /-- The lines of the input are executed on one session: each one on what those before it have
  left. -/
  one_session : ∀ k, (executeAll session context lines)[k]? = lines[k]?.map fun line =>
    (⟨line, ((session.follow ((lines.take k).map (context, ·))).execute context line).1⟩ : Report)
  /-- All of them are told of, and the program ends well: as text with what was written, the failures
  apart, -/
  input_text : runInput session context .text (asLines lines).toUTF8 =
    ⟨0, asLines ((executeAll session context lines).flatMap Report.output),
      String.join ((executeAll session context lines).filterMap fun report =>
        report.failure?.map fun failure => errorLine failure.message)⟩
  /-- or as data with one report on each line. -/
  input_json : runInput session context .json (asLines lines).toUTF8 =
    { output := asLines ((executeAll session context lines).map (·.toJson.compact)) }
  /-- The same lines as arguments have the same reports, up to the first failure and with it. -/
  reports : executeUntilFailure session context lines =
    (executeAll session context lines).takeWhile (! ·.failed) ++
      ((executeAll session context lines).find? Report.failed).toList
  /-- No line behind the first failure is executed: whatever is there, the outcome is the same. -/
  stops : (executeAll session context lines).any Report.failed = true → ∀ format others,
    runLines session context format
      (lines.take (executeUntilFailure session context lines).length ++ others) =
        runLines session context format lines
  /-- The exit code says whether a line failed. -/
  code : ∀ format, (runLines session context format lines).code =
    if (executeAll session context lines).any Report.failed then 1 else 0
  /-- As text there is what the lines before the first failure have written. -/
  text : (runLines session context .text lines).output =
    asLines (((executeAll session context lines).takeWhile (! ·.failed)).flatMap Report.output)
  /-- As data there is one array with the reports on the executed lines. -/
  json : (runLines session context .json lines).output =
    asLine ((Json.Value.array
      ((executeUntilFailure session context lines).map Report.toJson)).pretty 0)
  /-- A report says what its line has written, -/
  json_output : ∀ report ∈ executeUntilFailure session context lines,
    report.toJson.field? "output" = some (.array (report.output.map .string))
  /-- which together is what there is as text. -/
  json_text : asLines ((executeUntilFailure session context lines).flatMap Report.output) =
    (runLines session context .text lines).output
  /-- It has a position exactly if the line cannot be read: the index of the error. -/
  json_position : ∀ report ∈ executeUntilFailure session context lines,
    report.toJson.field? "position" =
      (report.failure?.bind Failure.parseError?).map fun e => .number e.index

/-- **All ways to run lines agree**, as far as they go. -/
theorem frontEndsAgree (session : Session) (context : Context)
    (h : ∀ line ∈ lines, IsLine line) : FrontEndsAgree session context lines where
  one_session := executeAll_getElem? session context lines
  input_text := by
    rw [runInput_asLines h, join_output_text, join_errors_text]
  input_json := by
    rw [runInput_asLines h, join_errors_json, asLines, List.map_map]
    rfl
  reports := executeUntilFailure_eq session context lines
  stops hfailed format others := by
    simp only [runLines, executeUntilFailure_take_append hfailed]
  code format := code_runLines session context format lines
  text := by rw [output_runLines, flatMap_output_executeUntilFailure]
  json := output_runLines session context .json lines
  json_output report _ := report.field?_output
  json_text := (output_runLines session context .text lines).symm
  json_position report _ := report.field?_position

/-- Of these lines the second one fails, since nothing is stored under its word, and the third one is
executed only if they are the input. -/
theorem frontEndsAgree_of_failure_between :
    ∃ reports : List Report,
      FrontEndsAgree (.new {}) (contextOf false) ["set a 5", "get b", "get a"] ∧
      executeAll (.new {}) (contextOf false) ["set a 5", "get b", "get a"] = reports ∧
      reports.map Report.failed = [false, true, false] ∧
      (runLines (.new {}) (contextOf false) .text ["set a 5", "get b", "get a"]).code = 1 ∧
      (runLines (.new {}) (contextOf false) .text ["set a 5", "get b", "get a"]).output = "a = 5\n" ∧
      (runInput (.new {}) (contextOf false) .text
        (asLines ["set a 5", "get b", "get a"]).toUTF8).output = "a = 5\n5\n" := by
  have hlines : ∀ line ∈ ["set a 5", "get b", "get a"], IsLine line := by decide
  have hagree := frontEndsAgree (.new {}) (contextOf false) hlines
  have hset := (Session.settled_new {}).execute_set (k := "a") (n := 5) (contextOf false) (by decide)
    (by decide) (by decide)
  obtain ⟨style, hs⟩ := ((Session.Reachable.new {}).execute hset).exists_settled
  have hb := hs.execute_get (k := "b") (contextOf false) (by decide)
  have ha := hs.execute_get (k := "a") (contextOf false) (by decide)
  rw [Session.numbers_put, Function.update_of_ne (by decide)] at hb
  rw [Session.numbers_put, Function.update_self] at ha
  have hreports : executeAll (.new {}) (contextOf false) ["set a 5", "get b", "get a"] =
      [⟨"set a 5", .ok ["a = 5"]⟩, ⟨"get b", .error (Store.noValue "b")⟩, ⟨"get a", .ok ["5"]⟩] := by
    have hset : (Session.new {}).execute (contextOf false) "set a 5" =
        (.ok ["a = 5"], (Session.new {}).put "a" 5) := hset
    have hb : ((Session.new {}).put "a" 5).execute (contextOf false) "get b" =
        (.error (Store.noValue "b"), (Session.new {}).put "a" 5) := hb
    have ha : ((Session.new {}).put "a" 5).execute (contextOf false) "get a" =
        (.ok ["5"], (Session.new {}).put "a" 5) := ha
    rw [executeAll_cons, hset, executeAll_cons, hb, executeAll_cons, ha]
    rfl
  refine ⟨_, hagree, hreports, rfl, ?_, ?_, ?_⟩
  · rw [hagree.code, hreports]
    rfl
  · rw [hagree.text, hreports]
    rfl
  · rw [hagree.input_text, hreports]
    rfl

end CommandLine

end CommandGrammar
