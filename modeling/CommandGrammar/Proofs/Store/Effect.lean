import CommandGrammar.Proofs.Store.Refinement
import CommandGrammar.Proofs.Store.Ways

/-!
# What lines do to a session

There is only so much that executing a line can do to a session (`Session.Effect`). It follows from
what the line visits, since no other verb is run than the one at the end of its way, and with nothing
but what was read on the way. Each theorem about sessions is then a case analysis over these
effects, and none of them looks at the grammar again.

Main statement: whatever lines have led to a session, its numbers lie within their bounds and stand
under words, a line that fails changes nothing, and no line breaks the rules by which grammars are
used (`Session.Reachable.sound`).
-/

namespace CommandGrammar.Store

variable {context : Context} {line k : String} {n : Int} {b : Bindings}

/-! ### Verbs -/

theorem run_toggle {on : Bool} (h : b.find? enabledArgument = some (.boolean on)) (store : Store) :
    (Verb.toggle.run b).run store =
      (.ok (), { store with enabled := on }.tell [s!"enabled: {on}"]) := by
  rw [Verb.run, getAs_of_find? h rfl]
  rfl

theorem run_status (b : Bindings) (store : Store) :
    (Verb.status.run b).run store =
      (.ok (), store.tell [s!"{store.values.size} entries, enabled: {store.enabled}"]) :=
  rfl

theorem run_reset (b : Bindings) (store : Store) :
    (Verb.reset.run b).run store =
      (.ok (), { store with values := {} }.tell [s!"cleared {store.values.size} entries"]) :=
  rfl

namespace Session

variable {style : UsageStyle} {session after : Session} {result : Except Failure (List String)}

/-! ### Effects -/

/-- The session with the switch turned on or off. -/
def turn (session : Session) (on : Bool) : Session :=
  { session with store := { session.store with enabled := on } }

/-- The session without any word. -/
def clear (session : Session) : Session :=
  { session with store := { session.store with values := {} } }

/-- What executing a line can do: its result, and the session after it. -/
inductive Effect (session : Session) (context : Context) (line : String) :
    Except Failure (List String) → Session → Prop where
  /-- The line cannot be read. -/
  | unreadable (e : ParseError) : Effect session context line (.error (.parse e)) session
  /-- The line asks for the number of a word that has none. -/
  | missing {k : String} : session.numbers k = none →
      Effect session context line (.error (noValue k)) session
  /-- The line is told something, or nothing. -/
  | told (lines : List String) : Effect session context line (.ok lines) session
  /-- A number is put under a word. -/
  | put {k : String} {n : Int} : Says line "set" k → 0 ≤ n → n ≤ maxValue →
      Effect session context line (.ok [entry k n]) (session.put k n)
  /-- A word is forgotten. -/
  | drop {k : String} : Says line "del" k ∨ Says line "rm" k → (session.numbers k).isSome →
      Effect session context line (.ok [s!"deleted {k}"]) (session.drop k)
  /-- The switch is turned on or off. -/
  | turn (on : Bool) : Effect session context line (.ok [s!"enabled: {on}"]) (session.turn on)
  /-- All words are forgotten, which takes an administrator. -/
  | clear : isAdmin context = true →
      Effect session context line (.ok [s!"cleared {session.store.values.size} entries"])
        session.clear

namespace Settled

variable (h : session.Settled style)
include h

theorem execute_of_select_error {failure : Failure}
    (hselect : (Store.dispatcher style).select context line = .error failure) :
    session.execute context line = (.error failure, session) := by
  rw [h.execute_eq, hselect]
  exact Prod.ext rfl h.without_output

theorem execute_of_select_none
    (hselect : (Store.dispatcher style).select context line = .ok none) :
    session.execute context line = (.ok [], session) := by
  rw [h.execute_eq, hselect]
  exact Prod.ext (congrArg Except.ok h.output) h.without_output

/-- A verb has one of the effects. -/
theorem effect_of_select {verb : Verb}
    (hselect : (Store.dispatcher style).select context line = .ok (some (verb, b))) :
    session.Effect context line (session.execute context line).1
      (session.execute context line).2 := by
  cases verb with
  | set =>
    obtain ⟨k, n, hsays, hk, hn, hleast, hgreatest⟩ := exists_of_select_set hselect
    rw [h.execute_of_run_ok hselect (run_set hk hn session.store) h.output]
    exact .put hsays hleast hgreatest
  | get =>
    obtain ⟨k, hk⟩ := exists_of_select_get hselect
    have hrun := run_get hk session.store
    cases hv : session.store.values[k]? with
    | some n =>
      rw [hv] at hrun
      rw [h.execute_of_run_ok hselect hrun h.output]
      exact .told _
    | none =>
      rw [hv] at hrun
      rw [h.execute_of_run_error hselect hrun]
      exact .missing hv
  | delete =>
    obtain ⟨k, hsays, hk⟩ := exists_of_select_delete hselect
    have hrun := run_delete hk session.store
    by_cases hv : session.store.values[k]?.isSome
    · rw [if_pos hv] at hrun
      rw [h.execute_of_run_ok hselect hrun h.output]
      exact .drop hsays hv
    · rw [if_neg hv] at hrun
      rw [h.execute_of_run_error hselect hrun]
      exact .missing (Option.not_isSome_iff_eq_none.1 hv)
  | list =>
    rw [h.execute_of_run_ok hselect (run_list b session.store) h.output]
    exact .told _
  | echo =>
    obtain ⟨t, ht⟩ := exists_of_select_echo hselect
    rw [h.execute_of_run_ok hselect (run_echo ht session.store) h.output]
    exact .told _
  | toggle =>
    obtain ⟨on, hon⟩ := exists_of_select_toggle hselect
    rw [h.execute_of_run_ok hselect (run_toggle hon session.store) h.output]
    exact .turn on
  | say =>
    obtain ⟨t, ht⟩ := exists_of_select_say hselect
    rw [h.execute_of_run_ok hselect (run_say ht session.store) h.output]
    exact .told _
  | status =>
    rw [h.execute_of_run_ok hselect (run_status b session.store) h.output]
    exact .told _
  | reset =>
    rw [h.execute_of_run_ok hselect (run_reset b session.store) h.output]
    exact .clear (isAdmin_of_select (.inr rfl) hselect)

/-- **Every line has one of the effects.** -/
theorem effect (hline : session.execute context line = (result, after)) :
    session.Effect context line result after := by
  have heffect : session.Effect context line (session.execute context line).1
      (session.execute context line).2 := by
    rcases hselect : (Store.dispatcher style).select context line with
      failure | _ | ⟨verb, b⟩
    · obtain ⟨e, rfl⟩ := Dispatcher.exists_parse_of_select_error (reachable_dispatcher style)
        (redirectsLead_dispatcher style) hselect
      rw [h.execute_of_select_error hselect]
      exact .unreadable e
    · rw [h.execute_of_select_none hselect]
      exact .told []
    · exact h.effect_of_select hselect
  rwa [hline] at heffect

end Settled

/-! ### What never changes -/

/-- All numbers lie within their bounds and stand under words. -/
def Bounded (session : Session) : Prop :=
  ∀ k n, session.numbers k = some n →
    (0 ≤ n ∧ n ≤ maxValue) ∧ ∀ c ∈ k.toList, isBlank c = false

theorem bounded_new (style : UsageStyle) : (Session.new style).Bounded := by
  intro k n hn
  have hnone : (Session.new style).numbers k = none := Std.TreeMap.getElem?_emptyc
  rw [hnone] at hn
  cases hn

/-- No line changes that. -/
theorem Effect.bounded (he : session.Effect context line result after) (h : session.Bounded) :
    after.Bounded := by
  cases he with
  | unreadable | missing | told | turn => exact h
  | @put k n hsays hleast hgreatest =>
    intro other m hm
    rw [numbers_put, Function.update_apply] at hm
    split at hm
    · rename_i heq
      obtain rfl := Option.some.inj hm
      obtain ⟨-, -, hword, -⟩ := hsays
      exact ⟨⟨hleast, hgreatest⟩, heq ▸ hword⟩
    · exact h other m hm
  | @drop k _ _ =>
    intro other m hm
    rw [numbers_drop, Function.update_apply] at hm
    split at hm
    · cases hm
    · exact h other m hm
  | clear _ =>
    intro other m hm
    have hnone : session.clear.numbers other = none := Std.TreeMap.getElem?_emptyc
    rw [hnone] at hm
    cases hm

theorem Reachable.bounded (h : session.Reachable) : session.Bounded := by
  induction h with
  | new style => exact bounded_new style
  | execute hsession hline ih =>
    obtain ⟨style, hs⟩ := hsession.exists_settled
    exact (hs.effect hline).bounded ih

/-- What can be relied on in a session between two lines. -/
structure Sound (session : Session) : Prop where
  /-- The numbers lie within their bounds. -/
  within : ∀ k n, session.numbers k = some n → 0 ≤ n ∧ n ≤ 1000
  /-- They stand under texts without a blank. -/
  words : ∀ k n, session.numbers k = some n → ∀ c ∈ k.toList, isBlank c = false
  /-- No output is left behind. -/
  output : session.store.output = []
  /-- The next line breaks no rule; above all, its command finds its arguments. -/
  no_violation : ∀ context line breach,
    (session.execute context line).1 ≠ .error (.violation breach)
  /-- If it fails, then it changes neither the numbers nor the switch. -/
  unchanged : ∀ context line failure after,
    session.execute context line = (.error failure, after) →
      after.store.values = session.store.values ∧ after.store.enabled = session.store.enabled

/-- **Every session that lines have led to is sound**, whatever the lines and their contexts were. -/
theorem Reachable.sound (h : session.Reachable) : session.Sound := by
  obtain ⟨style, hs⟩ := h.exists_settled
  have hbounded := h.bounded
  constructor
  case within => exact fun k n hn => (hbounded k n hn).1
  case words => exact fun k n hn => (hbounded k n hn).2
  case output => exact hs.output
  case no_violation =>
    intro context line breach hbreach
    have heffect := hs.effect (Prod.ext hbreach rfl)
    cases heffect
  case unchanged =>
    intro context line failure after hline
    cases hs.effect hline with
    | unreadable | missing => exact ⟨rfl, rfl⟩

/-- A number has been put under a word, and the line after that fails. -/
theorem sound_after_set :
    ∃ session : Session, session.Reachable ∧ session.numbers "a" = some 5 ∧
      (session.execute .empty "get b").1 = .error (noValue "b") ∧ session.Sound := by
  have hset := (settled_new {}).execute_set (k := "a") (n := 5) .empty (by decide) (by decide)
    (by decide)
  have hreach : ((Session.new {}).put "a" 5).Reachable := (Reachable.new {}).execute hset
  obtain ⟨style, hs⟩ := hreach.exists_settled
  have hnumbers := numbers_put (.new {}) "a" 5
  have hnone : ((Session.new {}).put "a" 5).numbers "b" = none := by
    rw [hnumbers, Function.update_of_ne (by decide)]
    exact Std.TreeMap.getElem?_emptyc
  refine ⟨_, hreach, by rw [hnumbers, Function.update_self], ?_, Reachable.sound hreach⟩
  have hget := hs.execute_get (k := "b") .empty (by decide)
  rw [hnone] at hget
  exact congrArg Prod.fst hget

end Session

end CommandGrammar.Store
