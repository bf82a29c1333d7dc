import CommandGrammar.Proofs.Dispatcher.Hidden
import CommandGrammar.Proofs.Store.Effect

/-!
# Guests

A guest is whoever executes a line in a context that does not say that he is an administrator. For
him `admin` is not there, nor is what stands below it, and no alias leads around it.

Main statement: a guest's line changes the number of one word at most, which it names, and no lines
of guests forget a word without one that deletes it by name (`Session.Settled.guests`).
-/

namespace CommandGrammar.Store

open Dispatcher (BeginsWith)

variable {context : Context} {line k : String} {n : Int}

/-- A context does not say that it is an administrator's. -/
def IsGuest (context : Context) : Prop := context.find? admin ≠ some true

theorem IsGuest.isAdmin_eq (h : IsGuest context) : isAdmin context = false := by
  rw [isAdmin]
  cases hfind : context.find? admin with
  | none => rfl
  | some on =>
    cases on with
    | false => rfl
    | true => exact absurd hfind h

/-- For a guest a line that begins with `admin` matches nothing. -/
theorem select_of_admin (style : UsageStyle) (h : IsGuest context)
    (hline : BeginsWith line "admin") :
    (dispatcher style).select context line =
      .error (.parse ⟨.unknownCommand, .atStart line⟩) := by
  have hu : (dispatcher style).tree.canUse 17 context = .ok false := by
    rw [canUse_admin, h.isAdmin_eq]
  rw [Dispatcher.select, Dispatcher.parse_eq_none_of_hidden (reachable_dispatcher style)
    (topLiteral style rfl) hu hline]

/-- A line deletes a word by its name. -/
def Deletes (line k : String) : Prop := Says line "del" k ∨ Says line "rm" k

namespace Session

variable {style : UsageStyle} {session after : Session} {result : Except Failure (List String)}

/-- What a line may do to the numbers of a session: nothing, put one under the word that it names, or
forget that word. -/
inductive Touches (session : Session) (line : String) :
    Except Failure (List String) → Session → Prop where
  /-- The numbers stay as they are. -/
  | nothing {result : Except Failure (List String)} {after : Session} :
      after.numbers = session.numbers → Touches session line result after
  /-- A number is put under the word, as the line is told. -/
  | put {k : String} {n : Int} {after : Session} : Says line "set" k →
      after.numbers = Function.update session.numbers k (some n) →
      Touches session line (.ok [s!"{k} = {n}"]) after
  /-- The word is forgotten, as the line is told. -/
  | drop {k : String} {after : Session} : Deletes line k →
      after.numbers = Function.update session.numbers k none →
      Touches session line (.ok [s!"deleted {k}"]) after

/-- All other effects are an administrator's. -/
theorem Effect.touches (he : session.Effect context line result after) (h : IsGuest context) :
    session.Touches line result after := by
  cases he with
  | unreadable | missing | told | turn => exact .nothing rfl
  | put hsays _ _ => exact .put hsays (numbers_put session _ _)
  | drop hsays _ => exact .drop hsays (numbers_drop session _)
  | clear hadmin =>
    rw [h.isAdmin_eq] at hadmin
    cases hadmin

/-- A word that is gone was deleted by its name. -/
theorem Touches.deletes (ht : session.Touches line result after) (hk : session.numbers k ≠ none)
    (hgone : after.numbers k = none) : Deletes line k ∧ result = .ok [s!"deleted {k}"] := by
  cases ht with
  | nothing hsame =>
    rw [hsame] at hgone
    exact absurd hgone hk
  | put _ hput =>
    rw [hput, Function.update_apply] at hgone
    split at hgone
    · cases hgone
    · exact absurd hgone hk
  | @drop other _ hdeletes hdrop =>
    rw [hdrop, Function.update_apply] at hgone
    split at hgone
    · rename_i heq
      subst heq
      exact ⟨hdeletes, rfl⟩
    · exact absurd hgone hk

/-- The session after some lines, each with its context. -/
def follow (session : Session) (inputs : List (Context × String)) : Session :=
  inputs.foldl (fun session input => (session.execute input.1 input.2).2) session

theorem follow_cons (session : Session) (context : Context) (line : String)
    (inputs : List (Context × String)) :
    session.follow ((context, line) :: inputs) = (session.execute context line).2.follow inputs :=
  rfl

/-- **If guests make a word disappear, then one of them has deleted it by its name.** -/
theorem Settled.exists_deletes (h : session.Settled style) {inputs : List (Context × String)}
    (hguests : ∀ input ∈ inputs, IsGuest input.1) (hk : session.numbers k ≠ none)
    (hgone : (session.follow inputs).numbers k = none) :
    ∃ before context line rest, inputs = before ++ (context, line) :: rest ∧ Deletes line k ∧
      ((session.follow before).execute context line).1 = .ok [s!"deleted {k}"] := by
  induction inputs generalizing session with
  | nil => exact absurd hgone hk
  | cons input inputs ih =>
    obtain ⟨context, line⟩ := input
    obtain ⟨hguest, hguests⟩ := List.forall_mem_cons.1 hguests
    have hline : session.execute context line = (_, _) := rfl
    have htouches := (h.effect hline).touches hguest
    by_cases hnext : (session.execute context line).2.numbers k = none
    · obtain ⟨hdeletes, hresult⟩ := htouches.deletes hk hnext
      exact ⟨[], context, line, inputs, rfl, hdeletes, hresult⟩
    · obtain ⟨before, context', line', rest, rfl, hfound⟩ := ih (h.execute rfl) hguests hnext hgone
      exact ⟨(context, line) :: before, context', line', rest, rfl, hfound⟩

/-- **Guests cannot do what is an administrator's**, in any session. A guest's line touches the number
of one word at most, namely that of the word that it names, behind `set`, `del` or `rm`, and only if
it succeeds. One that begins with `admin` is an unknown command at the beginning of the line, and
changes nothing. So a word that has gone after some lines of guests was deleted by one that names
it. -/
theorem Settled.guests (h : session.Settled style) :
    (∀ context line, IsGuest context →
      session.Touches line (session.execute context line).1 (session.execute context line).2) ∧
    (∀ context line, IsGuest context → BeginsWith line "admin" →
      session.execute context line =
        (.error (.parse ⟨.unknownCommand, .atStart line⟩), session)) ∧
    ∀ inputs : List (Context × String), (∀ input ∈ inputs, IsGuest input.1) → ∀ k,
      session.numbers k ≠ none → (session.follow inputs).numbers k = none →
      ∃ before context line rest, inputs = before ++ (context, line) :: rest ∧ Deletes line k ∧
        ((session.follow before).execute context line).1 = .ok [s!"deleted {k}"] := by
  refine ⟨fun context line hguest => (h.effect rfl).touches hguest, ?_, ?_⟩
  · intro context line hguest hline
    exact h.execute_of_select_error (select_of_admin style hguest hline)
  · intro inputs hguests k hk hgone
    exact h.exists_deletes hguests hk hgone

/-- `admin reset` does nothing to the word, and `rm a` then deletes it. -/
theorem guests_beside_word :
    ∃ session : Session, session.Settled {} ∧ session.numbers "a" = some 5 ∧
      IsGuest .empty ∧ BeginsWith "admin reset" "admin" ∧
      session.execute .empty "admin reset" =
        (.error (.parse ⟨.unknownCommand, .atStart "admin reset"⟩), session) ∧
      (session.follow [(.empty, "admin reset"), (.empty, "rm a")]).numbers "a" = none ∧
      ∃ before context line rest,
        [(.empty, "admin reset"), (.empty, "rm a")] = before ++ (context, line) :: rest ∧
          Deletes line "a" ∧
          ((session.follow before).execute context line).1 = .ok ["deleted a"] := by
  have hset := (settled_new {}).execute_set (k := "a") (n := 5) .empty (by decide) (by decide)
    (by decide)
  have hs : ((Session.new {}).put "a" 5).Settled {} := (settled_new {}).execute hset
  have hnumber : ((Session.new {}).put "a" 5).numbers "a" = some 5 := by
    rw [numbers_put, Function.update_self]
  have hguest : IsGuest .empty := by rintro ⟨⟩
  have hline : BeginsWith "admin reset" "admin" := by decide
  obtain ⟨-, hadmin, hdeleted⟩ := Settled.guests hs
  have hreset := hadmin .empty "admin reset" hguest hline
  have hgone : (((Session.new {}).put "a" 5).follow
      [(.empty, "admin reset"), (.empty, "rm a")]).numbers "a" = none := by
    have hrm := hs.execute_delete (takes_rm {}) .empty (k := "a") (by decide)
    rw [hnumber, Option.isSome_some, if_pos rfl] at hrm
    rw [follow_cons, hreset, follow_cons]
    change ((Session.new {}).put "a" 5 |>.execute .empty ("rm" ++ " " ++ "a")).2.numbers "a" = none
    rw [hrm, numbers_drop, Function.update_self]
  refine ⟨_, hs, hnumber, hguest, hline, hreset, hgone, hdeleted _ ?_ "a" ?_ hgone⟩
  · intro input hinput
    simp only [List.mem_cons, List.not_mem_nil, or_false] at hinput
    rcases hinput with rfl | rfl <;> exact hguest
  · rw [hnumber]
    rintro ⟨⟩

end Session

end CommandGrammar.Store
