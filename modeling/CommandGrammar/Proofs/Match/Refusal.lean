import CommandGrammar.Proofs.Match.Front
import CommandGrammar.Proofs.Match.Nesting
import CommandGrammar.Proofs.Match.Path

/-!
# Why a line is refused

The types at hand refuse a text for eight causes, and the search refuses what a type has read if no
separator stands behind it. This module says what stands in the line in each case, and where
(`Refusal`, `Tree.Blames`).

Main statement: if a line cannot be read, then a search that is started for it is to blame
(`Tree.exists_blames`): an argument below its node refuses the text from there on, or has stopped
before a character that is no separator. Literals and flags are never to blame, since they take
whole tokens.
-/

namespace CommandGrammar

open Relation

variable {κ : Type}

/-! ### What the types at hand refuse -/

/-- Whether a number or a truth value is refused. -/
def ParseCause.isOfValue : ParseCause → Bool
  | expectedNumber _ => true
  | invalidNumber _ _ => true
  | numberTooLow _ _ => true
  | numberTooHigh _ _ => true
  | invalidBoolean _ => true
  | _ => false

/-- Whether a number is less than another one of its kind. -/
def Number.lt : Number → Number → Bool
  | integer _ a, integer _ b => decide (a < b)
  | floating _ a, floating _ b => a.lt b
  | _, _ => false

/-- What the types at hand refuse of the text at a place, and where they stop. -/
inductive Refusal (c : Cursor) : ParseError → Prop where
  /-- No character stands there that a number of the kind may hold. -/
  | expectedNumber {kind : NumberKind} : c.rest.takeWhile kind.allows = [] →
      Refusal c ⟨.expectedNumber kind, c⟩
  /-- The characters there write no number of the kind. -/
  | invalidNumber {kind : NumberKind} {run : List Char} : c.rest.takeWhile kind.allows = run →
      run ≠ [] → kind.read? run = none → Refusal c ⟨.invalidNumber kind (String.ofList run), c⟩
  /-- The number there is too low. -/
  | numberTooLow {least value : Number} :
      value.kind.read? (c.rest.takeWhile value.kind.allows) = some value →
      value.lt least = true → Refusal c ⟨.numberTooLow least value, c⟩
  /-- The number there is too high. -/
  | numberTooHigh {greatest value : Number} :
      value.kind.read? (c.rest.takeWhile value.kind.allows) = some value →
      greatest.lt value = true → Refusal c ⟨.numberTooHigh greatest value, c⟩
  /-- The word there is no truth value. -/
  | invalidBoolean {word : String} : word.toList = c.rest.takeWhile inWord → word ≠ "true" →
      word ≠ "false" → Refusal c ⟨.invalidBoolean word, c⟩
  /-- No quote stands there. -/
  | expectedOpeningQuote : c.peek ≠ some Quoted.quote → Refusal c ⟨.expectedOpeningQuote, c⟩
  /-- A quote stands there, and the text behind it goes on to the end of the line. -/
  | expectedClosingQuote {after : Cursor} : c.peek = some Quoted.quote → c.Advances after →
      after.rest = [] → Refusal c ⟨.expectedClosingQuote, after⟩
  /-- A quote stands there, and some way behind it a character that cannot be escaped, behind a
  backslash. -/
  | invalidEscape {after : Cursor} {front : List Char} {escape : Char} :
      c.rest = Quoted.quote :: front ++ after.rest →
      after.consumed = c.consumed ++ Quoted.quote :: front →
      front.getLast? = some Quoted.escape → after.peek = some escape →
      Quoted.isEscaped escape = false → Refusal c ⟨.invalidEscape escape, after⟩

namespace Refusal

variable {c : Cursor} {e : ParseError}

/-- Nothing is refused before the place. -/
theorem advances (h : Refusal c e) : c.Advances e.place := by
  cases h with
  | expectedNumber _ => exact .refl c
  | invalidNumber _ _ _ => exact .refl c
  | numberTooLow _ _ => exact .refl c
  | numberTooHigh _ _ => exact .refl c
  | invalidBoolean _ _ _ => exact .refl c
  | expectedOpeningQuote _ => exact .refl c
  | expectedClosingQuote _ h _ => exact h
  | invalidEscape hrest hconsumed _ _ _ => exact ⟨_, hrest, hconsumed⟩

/-- A number or a truth value is refused where it begins. -/
theorem place_eq (h : Refusal c e) (hv : e.cause.isOfValue = true) : e.place = c := by
  cases h with
  | expectedClosingQuote _ _ _ => cases hv
  | invalidEscape _ _ _ _ _ => cases hv
  | _ => rfl

theorem cause_ne_incompleteParse (h : Refusal c e) : e.cause ≠ .incompleteParse := by
  intro hcause
  cases h <;> cases hcause

end Refusal

namespace Quoted

/-- Where a fault stands, if some text was read before it. -/
def Fault.StandsAt (read rest : List Char) : Fault → Prop
  | unclosed => rest = []
  | badEscape d => read.getLast? = some escape ∧ rest.head? = some d ∧ isEscaped d = false

theorem Fault.StandsAt.cons {fault : Fault} {read rest : List Char} (h : fault.StandsAt read rest)
    (c : Char) : fault.StandsAt (c :: read) rest := by
  cases fault with
  | unclosed => exact h
  | badEscape d =>
    obtain ⟨hlast, hrest⟩ := h
    exact ⟨by rw [List.getLast?_cons, hlast]; rfl, hrest⟩

theorem Scan.outcome_eq_error_of_cons {c : Char} {count : Nat} {scan : Scan} {fault : Fault}
    (h : (scan.cons c count).outcome = .error fault) : scan.outcome = .error fault := by
  obtain ⟨outcome, length⟩ := scan
  cases outcome with
  | error other => exact h
  | ok text => cases h

/-- A fault stands behind everything that a scan has read. -/
theorem exists_of_scanBody_error {text : List Char} {fault : Fault}
    (h : (scanBody text).outcome = .error fault) :
    ∃ read rest, text = read ++ rest ∧ (scanBody text).length = read.length ∧
      fault.StandsAt read rest := by
  fun_induction scanBody text with
  | case1 =>
    cases h
    exact ⟨[], [], rfl, rfl, rfl⟩
  | case2 => cases h
  | case3 =>
    cases h
    exact ⟨[escape], [], rfl, rfl, rfl⟩
  | case4 d s hd _ ih =>
    obtain ⟨read, rest, hs, hlength, hfault⟩ := ih (Scan.outcome_eq_error_of_cons h)
    refine ⟨escape :: d :: read, rest, by rw [hs]; rfl, ?_, (hfault.cons d).cons escape⟩
    simp only [Scan.cons, hlength, List.length_cons]
    omega
  | case5 d s hd =>
    cases h
    exact ⟨[escape], d :: s, rfl, rfl, rfl, rfl, Bool.not_eq_true _ ▸ hd⟩
  | case6 c s _ _ ih =>
    obtain ⟨read, rest, hs, hlength, hfault⟩ := ih (Scan.outcome_eq_error_of_cons h)
    refine ⟨c :: read, rest, by rw [hs]; rfl, ?_, hfault.cons c⟩
    simp only [Scan.cons, hlength, List.length_cons]
    omega

end Quoted

/-- A form of the values does not change what is refused. -/
theorem Reading.eq_error_of_as {α β : Type} {f : α → β} {r : Reading α} {e : ParseError}
    (h : Reading.as f r = .error e) : r = .error e := by
  cases r with
  | error other => exact congrArg _ (Except.error.inj h)
  | ok p => cases h

namespace NumberDomain

variable {α : Type} {domain : NumberDomain α}

/-- A domain has the numbers of its kind, and reads and compares them as such. -/
structure Lawful (domain : NumberDomain α) : Prop where
  /-- Every number of it is of its kind. -/
  kind_eq : ∀ a, (domain.toNumber a).kind = domain.kind
  /-- A text writes the same number in it as in the kind. -/
  read?_eq : ∀ text, domain.kind.read? text = (domain.read? text).map domain.toNumber
  /-- They are in the same order. -/
  lt_eq : ∀ a b, (domain.toNumber a).lt (domain.toNumber b) = domain.lt a b

theorem exists_of_boundFault? {bounds : Option (α × α)} {value : α} {cause : ParseCause}
    (h : domain.boundFault? bounds value = some cause) :
    (∃ least, domain.lt value least = true ∧
      cause = .numberTooLow (domain.toNumber least) (domain.toNumber value)) ∨
    ∃ greatest, domain.lt greatest value = true ∧
      cause = .numberTooHigh (domain.toNumber greatest) (domain.toNumber value) := by
  unfold boundFault? at h
  split at h
  · cases h
  rename_i least greatest
  split at h
  · rename_i hlow
    cases h
    exact .inl ⟨least, hlow, rfl⟩
  split at h
  · rename_i hhigh
    cases h
    exact .inr ⟨greatest, hhigh, rfl⟩
  · cases h

theorem refusal_of_read (hd : domain.Lawful) {bounds : Option (α × α)} {c : Cursor} {e : ParseError}
    (h : domain.read bounds c = .error e) : Refusal c e := by
  unfold read at h
  simp only [Cursor.fail] at h
  split at h
  · rename_i hrun
    cases h
    exact .expectedNumber hrun
  rename_i hrun
  split at h
  · rename_i hread
    cases h
    exact .invalidNumber rfl hrun (by rw [hd.read?_eq, hread]; rfl)
  rename_i value hread
  have hvalue : (domain.toNumber value).kind.read?
      (c.rest.takeWhile (domain.toNumber value).kind.allows) = some (domain.toNumber value) := by
    rw [hd.kind_eq, hd.read?_eq, hread]
    rfl
  split at h
  · rename_i cause hfault
    cases h
    rcases exists_of_boundFault? hfault with ⟨least, hlow, rfl⟩ | ⟨greatest, hhigh, rfl⟩
    · exact .numberTooLow hvalue ((hd.lt_eq _ _).trans hlow)
    · exact .numberTooHigh hvalue ((hd.lt_eq _ _).trans hhigh)
  · cases h

end NumberDomain

theorem IntegerKind.lawful_domain (kind : IntegerKind) : kind.domain.Lawful where
  kind_eq _ := rfl
  read?_eq _ := rfl
  lt_eq _ _ := rfl

theorem FloatKind.lawful_domain (kind : FloatKind) : kind.domain.Lawful where
  kind_eq _ := rfl
  read?_eq _ := rfl
  lt_eq _ _ := rfl

theorem refusal_of_readQuoted {c : Cursor} {e : ParseError} (h : readQuoted c = .error e) :
    Refusal c e := by
  unfold readQuoted at h
  simp only [Cursor.fail] at h
  split at h
  · rename_i hpeek
    obtain ⟨body, hbody⟩ := List.head?_eq_some_iff.1 hpeek
    rw [hbody, List.drop_one, List.tail_cons] at h
    have hadvance : ∀ {read rest : List Char}, body = read ++ rest →
        (Quoted.scanBody body).length = read.length →
        c.advance (1 + (Quoted.scanBody body).length) =
          ⟨c.consumed ++ Quoted.quote :: read, rest⟩ := by
      intro read rest hs hlength
      rw [hlength, Nat.add_comm, ← List.length_cons (a := Quoted.quote)]
      exact Cursor.advance_length (by rw [hbody, hs]; rfl)
    split at h
    · cases h
    · rename_i hscan
      obtain ⟨read, rest, hs, hlength, hfault⟩ := Quoted.exists_of_scanBody_error hscan
      cases h
      refine .expectedClosingQuote hpeek (c.advances_advance _) ?_
      rw [hadvance hs hlength]
      exact hfault
    · rename_i d hscan
      obtain ⟨read, rest, hs, hlength, hlast, hrest, hd⟩ := Quoted.exists_of_scanBody_error hscan
      cases h
      rw [hadvance hs hlength]
      exact .invalidEscape (by rw [hbody, hs]; rfl) rfl hlast hrest hd
  · rename_i hpeek
    cases h
    exact .expectedOpeningQuote hpeek

theorem refusal_of_readBoolean {c : Cursor} {e : ParseError} (h : readBoolean c = .error e) :
    Refusal c e := by
  unfold readBoolean at h
  simp only [Cursor.fail] at h
  split at h
  · cases h
  · cases h
  · rename_i htrue hfalse
    cases h
    exact .invalidBoolean String.toList_ofList htrue hfalse

/-- **What the types at hand refuse**, they refuse for what stands in the line. -/
theorem ArgumentType.refusal_of_read {type : ArgumentType} (h : type.isBuiltIn = true)
    {context : Context} {c : Cursor} {e : ParseError} (hr : type.read context c = .error e) :
    Refusal c e := by
  cases type with
  | integer kind bounds =>
    exact NumberDomain.refusal_of_read kind.lawful_domain (Reading.eq_error_of_as hr)
  | floating kind bounds =>
    exact NumberDomain.refusal_of_read kind.lawful_domain (Reading.eq_error_of_as hr)
  | text mode =>
    cases mode with
    | word => cases hr
    | greedy => cases hr
    | quoted => exact refusal_of_readQuoted (Reading.eq_error_of_as hr)
  | boolean => exact refusal_of_readBoolean (Reading.eq_error_of_as hr)
  | custom type => cases h

/-! ### What a search refuses -/

/-- Where no part begins, another character than a separator stands. -/
theorem Cursor.exists_of_nextPart?_eq_none {c : Cursor} (h : c.nextPart? = none) :
    ∃ next, c.peek = some next ∧ next ≠ separator := by
  unfold nextPart? at h
  cases hpeek : c.peek with
  | none =>
    rw [hpeek] at h
    cases h
  | some next =>
    refine ⟨next, rfl, ?_⟩
    rintro rfl
    rw [hpeek] at h
    simp at h

/-- Behind a flag the next part begins. -/
theorem Cursor.exists_nextPart?_of_readFlag? {c d : Cursor} {flag : Char}
    (h : c.readFlag? flag = some d) : ∃ next, d.nextPart? = some next := by
  unfold readFlag? at h
  split at h
  · rename_i char rest hrest
    split at h
    · rename_i hend
      obtain rfl := Option.some.inj h
      have hpeek : (c.advance 2).peek = rest.head? := by simp [peek, advance, hrest]
      unfold nextPart?
      rw [hpeek]
      cases hhead : rest.head? with
      | none => exact ⟨_, rfl⟩
      | some next =>
        rw [hhead] at hend
        exact ⟨_, if_pos (by simpa using hend.2)⟩
    · cases h
  · cases h

namespace Tree

variable {tree : Tree κ} {context : Context} {q p : Search} {child : NodeId} {c : Cursor}
  {t : Trail} {e : ParseError}

/-- A search is started for another one, by it or by one that is started for it. -/
def Reaches (tree : Tree κ) (context : Context) : Search → Search → Prop :=
  ReflTransGen (tree.Nests context)

theorem Reaches.advances (h : tree.Reaches context q p) : q.cursor.Advances p.cursor := by
  induction h with
  | refl => exact .refl _
  | tail _ hn ih => exact ih.trans hn.advances

/-- A search comes back with an error, and an argument that it looks at fails with it. -/
structure Raises (tree : Tree κ) (context : Context) (p : Search) (a : Argument) (e : ParseError) :
    Prop where
  /-- The search comes back with the error. -/
  search : tree.search context p = .error (.parse e)
  /-- The argument fails with it. -/
  step : ∃ child, tree.Tries p child ∧ tree.kind? child = some (.argument a) ∧
    tree.step context child p.cursor p.trail = .error (.parse e)

/-- A search is to blame for an error. -/
inductive Blames (tree : Tree κ) (context : Context) (p : Search) : ParseError → Prop where
  /-- An argument refuses the text from there on. -/
  | refused {a : Argument} {e : ParseError} : tree.Raises context p a e →
      a.type.read context p.cursor = .error e → Blames tree context p e
  /-- An argument has read a value, and another character than a separator follows. -/
  | unseparated {a : Argument} {value : Value} {after : Cursor} {next : Char} :
      tree.Raises context p a ⟨.incompleteParse, after⟩ →
      a.type.read context p.cursor = .ok (value, after) → after.peek = some next →
      next ≠ separator → Blames tree context p ⟨.incompleteParse, after⟩

/-- A step fails if its symbol cannot be read, or if no part begins behind what was read. -/
theorem exists_read_of_step_eq_error (h : tree.step context child c t = .error (.parse e)) :
    ∃ node symbol, tree.node? child = some node ∧ node.symbol? = some symbol ∧
      (symbol.read context c t = .error e ∨ ∃ after u,
        symbol.read context c t = .ok (some (after, u)) ∧ after.nextPart? = none ∧
          e = ⟨.incompleteParse, after⟩) := by
  unfold step at h
  split at h
  · cases h
  rename_i node hn
  split at h
  · cases h
  rename_i symbol hs
  refine ⟨node, symbol, node_eq_ok.1 hn, hs, ?_⟩
  split at h
  · split at h
    · rename_i hr
      cases h
      exact .inl hr
    · cases h
    rename_i after u hr
    split at h
    · cases h
    · rename_i hp
      cases h
      exact .inr ⟨after, u, hr, hp, rfl⟩
  · cases h

/-- Only an argument can fail: a literal that is looked at is the next token, and a flag is read as
one. -/
theorem blames_of_step (hw : tree.WellFormed) (hq : tree.search context q = .error (.parse e))
    (ht : tree.Tries q child) (h : tree.step context child q.cursor q.trail = .error (.parse e)) :
    tree.Blames context q e := by
  obtain ⟨node, hn, hm⟩ := ht.relevant
  obtain ⟨childNode, symbol, hc, hs, hr⟩ := exists_read_of_step_eq_error h
  have hkind : tree.kind? child = some symbol.kind := by
    rw [kind?, symbol?_of_node? hc, hs]
    rfl
  rcases symbol with ⟨name | a, ending⟩ | f
  · have hname := token_of_relevant hw hn hm hc hs
    obtain ⟨next, hnext, -⟩ := q.cursor.exists_nextPart?_of_token ht.readable
    rcases hr with hr | ⟨after, u, hr, hp, -⟩
    · cases hr
    · cases hr
      rw [hname, hnext] at hp
      cases hp
  · simp only [Symbol.read] at hr
    cases hread : a.type.read context q.cursor with
    | error other =>
      rw [hread] at hr
      rcases hr with hr | ⟨_, _, hr, -, -⟩
      · cases hr
        exact .refused ⟨hq, child, ht, hkind, h⟩ hread
      · cases hr
    | ok result =>
      rw [hread] at hr
      rcases hr with hr | ⟨after, _, hr, hp, rfl⟩
      · cases hr
      · cases hr
        obtain ⟨next, hpeek, hnext⟩ := Cursor.exists_of_nextPart?_eq_none hp
        exact .unseparated ⟨hq, child, ht, hkind, h⟩ hread hpeek hnext
  · simp only [Symbol.read] at hr
    rcases hr with hr | ⟨after, u, hr, hp, -⟩
    · cases hr
    · obtain ⟨after, hflag, hpair⟩ := Option.map_eq_some_iff.1 (Except.ok.inj hr)
      cases hpair
      obtain ⟨next, hnext⟩ := Cursor.exists_nextPart?_of_readFlag? hflag
      rw [hnext] at hp
      cases hp

/-- **If a line cannot be read, a search that is started for it is to blame.** -/
theorem exists_blames (hw : tree.WellFormed) (h : tree.search context q = .error (.parse e)) :
    ∃ p, tree.Reaches context q p ∧ tree.Blames context p e := by
  induction q using tree.search_induction context with
  | search q ih =>
    have hy := tree.yields_search context q
    rw [h] at hy
    cases hy with
    | refused ht hs => exact ⟨q, .refl, blames_of_step hw h ht hs⟩
    | @nested child p _ hp hresult =>
      obtain ⟨blamed, hreaches, hblames⟩ := ih p ⟨child, hp⟩ hresult
      exact ⟨blamed, .head ⟨child, hp⟩ hreaches, hblames⟩

end Tree

end CommandGrammar
