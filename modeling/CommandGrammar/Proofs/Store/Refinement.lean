import CommandGrammar.Proofs.Store.Grammar
import CommandGrammar.Proofs.Text.ByteOrder

/-!
# Sessions are maps

A session of the store, after any lines, is told by the numbers under its words
(`Session.numbers`), and every command acts on them as its name says.

Each verb has an equation for its run on a store, and each line of a command one for its execution
in a session between two lines (`Session.Settled`). Executing a line, whichever it is, leads from
such a session to such a session, so they hold in all that can come up.

Main statement: a session that lines have led to behaves as a map from words to numbers
(`Session.Reachable.refinesMap`).
-/

namespace CommandGrammar.Store

variable {context : Context} {line name k t : String} {n : Int} {b : Bindings} {store : Store}

/-! ### Verbs -/

theorem getAs_of_find? {τ : ValueType} {a : Argument} {v : Value} {carrier : τ.Carrier}
    (h : b.find? a = some v) (hv : v.as? τ = some carrier) : b.getAs τ a = .ok carrier := by
  simp only [Bindings.getAs, Bindings.get, h, bind, Except.bind, hv]

/-- A store with more output. -/
def tell (store : Store) (lines : List String) : Store :=
  { store with output := store.output ++ lines }

theorem run_set (hk : b.find? key = some (.text k))
    (hn : b.find? value = some (.number (.integer .int n))) (store : Store) :
    (Verb.set.run b).run store =
      (.ok (), { store with values := store.values.insert k n }.tell [entry k n]) := by
  rw [Verb.run, getAs_of_find? hk rfl, getAs_of_find? hn rfl]
  rfl

theorem run_get (hk : b.find? key = some (.text k)) (store : Store) :
    (Verb.get.run b).run store =
      match store.values[k]? with
      | some n => (.ok (), store.tell [toString n])
      | none => (.error (noValue k), store) := by
  rw [Verb.run, getAs_of_find? hk rfl]
  change ExceptT.run (match store.values[k]? with
    | some n => write [toString n]
    | none => throw (noValue k)) store = _
  cases store.values[k]? with
  | some n => rfl
  | none => rfl

theorem run_delete (hk : b.find? key = some (.text k)) (store : Store) :
    (Verb.delete.run b).run store =
      if store.values[k]?.isSome then
        (.ok (), { store with values := store.values.erase k }.tell [s!"deleted {k}"])
      else (.error (noValue k), store) := by
  rw [Verb.run, getAs_of_find? hk rfl]
  change ExceptT.run (if k ∈ store.values then (do
      modify fun store => { store with values := store.values.erase k }
      write [s!"deleted {k}"] : Change Unit)
    else throw (noValue k)) store = _
  simp only [Std.TreeMap.mem_iff_isSome_getElem?]
  split
  · rfl
  · rfl

theorem run_list (b : Bindings) (store : Store) :
    (Verb.list.run b).run store =
      (.ok (), store.tell
        (store.values.toList.map fun e => if b.hasFlag verbose then entry e.1 e.2 else e.1)) :=
  rfl

theorem run_echo (h : b.find? text = some (.text t)) (store : Store) :
    (Verb.echo.run b).run store = (.ok (), store.tell [t]) := by
  rw [Verb.run, getAs_of_find? h rfl]
  rfl

theorem run_say (h : b.find? message = some (.text t)) (store : Store) :
    (Verb.say.run b).run store = (.ok (), store.tell [t]) := by
  rw [Verb.run, getAs_of_find? h rfl]
  rfl

/-! ### Sessions between two lines -/

/-- A session between two lines: its commands are those of the store, and the output of the lines so
far has been taken. -/
structure Session.Settled (style : UsageStyle) (session : Session) : Prop where
  /-- The commands are those of the store. -/
  commands : session.dispatcher = Store.dispatcher style
  /-- There is no output. -/
  output : session.store.output = []

namespace Session

variable {style : UsageStyle} {session : Session} {verb : Verb}

/-- A session that lines have led to. -/
inductive Reachable : Session → Prop where
  /-- There was no line yet. -/
  | new (style : UsageStyle) : Reachable (.new style)
  /-- A line is executed, and may fail. -/
  | execute {session after : Session} {context : Context} {line : String}
      {result : Except Failure (List String)} : session.Reachable →
      session.execute context line = (result, after) → Reachable after

theorem settled_new (style : UsageStyle) : (Session.new style).Settled style :=
  ⟨by simp only [Session.new], rfl⟩

/-- Whatever a line is and does, nothing of its output is left behind. -/
theorem Settled.execute {after : Session} {result : Except Failure (List String)}
    (h : session.Settled style) (hline : session.execute context line = (result, after)) :
    after.Settled style := by
  have hafter : (session.execute context line).2 = after := congrArg Prod.snd hline
  subst hafter
  exact ⟨h.commands, rfl⟩

theorem Reachable.exists_settled (h : session.Reachable) : ∃ style, session.Settled style := by
  induction h with
  | new style => exact ⟨style, settled_new style⟩
  | execute _ hline ih =>
    obtain ⟨style, ih⟩ := ih
    exact ⟨style, ih.execute hline⟩

/-! ### Sessions as maps -/

/-- The number under a word. -/
def numbers (session : Session) : String → Option Int := fun k => session.store.values[k]?

/-- The session with a number under a word. -/
def put (session : Session) (k : String) (n : Int) : Session :=
  { session with store := { session.store with values := session.store.values.insert k n } }

/-- The session without a word. -/
def drop (session : Session) (k : String) : Session :=
  { session with store := { session.store with values := session.store.values.erase k } }

theorem numbers_put (session : Session) (k : String) (n : Int) :
    (session.put k n).numbers = Function.update session.numbers k (some n) := by
  funext other
  rw [numbers, put, Std.TreeMap.getElem?_insert, Function.update_apply, numbers]
  simp only [Std.compare_eq_iff_eq, @eq_comm _ other k]

theorem numbers_drop (session : Session) (k : String) :
    (session.drop k).numbers = Function.update session.numbers k none := by
  funext other
  rw [numbers, drop, Std.TreeMap.getElem?_erase, Function.update_apply, numbers]
  simp only [Std.compare_eq_iff_eq, @eq_comm _ other k]

/-- The words of a session with their numbers, as the store lists them. -/
def entries (session : Session) : List (String × Int) := session.store.values.toList

theorem pairwise_entries (session : Session) :
    session.entries.Pairwise fun x y => bytesOf x.1 < bytesOf y.1 := by
  refine Std.TreeMap.ordered_keys_toList.imp ?_
  intro x y hlt
  exact bytesOf_lt_bytesOf_iff.2 (compareOfLessAndEq_eq_lt.1 hlt)

theorem mem_entries_iff (session : Session) (k : String) (n : Int) :
    (k, n) ∈ session.entries ↔ session.numbers k = some n :=
  Std.TreeMap.mem_toList_iff_getElem?_eq_some

/-! ### What lines do -/

namespace Settled

variable (h : session.Settled style)
include h

/-- What was selected is run on the store, and its output is taken out. -/
theorem execute_eq (context : Context) (line : String) :
    session.execute context line =
      let (result, store) := (Dispatcher.runSelected Verb.run
        ((Store.dispatcher style).select context line)).run session.store
      (result.map fun () => store.output, { session with store := { store with output := [] } }) := by
  rw [← h.commands]
  rfl

/-- There is no output to take out of a settled session. -/
theorem without_output : { session with store := { session.store with output := [] } } = session := by
  rw [← h.output]

/-- A verb that ends well gives its output, and leaves the store that it made without it. -/
theorem execute_of_run_ok {lines : List String}
    (hselect : (Store.dispatcher style).select context line = .ok (some (verb, b)))
    (hrun : (verb.run b).run session.store = (.ok (), store.tell lines)) (houtput : store.output = []) :
    session.execute context line = (.ok lines, { session with store }) := by
  obtain ⟨values, enabled, output⟩ := store
  obtain rfl : output = [] := houtput
  rw [h.execute_eq, hselect, Dispatcher.runSelected, hrun]
  rfl

/-- A verb that fails leaves the session as it was. -/
theorem execute_of_run_error {failure : Failure}
    (hselect : (Store.dispatcher style).select context line = .ok (some (verb, b)))
    (hrun : (verb.run b).run session.store = (.error failure, session.store)) :
    session.execute context line = (.error failure, session) := by
  rw [h.execute_eq, hselect, Dispatcher.runSelected, hrun]
  exact Prod.ext rfl h.without_output

theorem execute_set (context : Context) (hk : IsKey k) (hleast : 0 ≤ n) (hgreatest : n ≤ maxValue) :
    session.execute context s!"set {k} {n}" = (.ok [entry k n], session.put k n) := by
  obtain ⟨b, hselect, hkey, hvalue⟩ := exists_select_set style context hk hleast hgreatest
  exact h.execute_of_run_ok hselect (run_set hkey hvalue session.store) h.output

theorem execute_get (context : Context) (hk : IsKey k) :
    session.execute context s!"get {k}" =
      (match session.numbers k with
        | some n => .ok [toString n]
        | none => .error (noValue k), session) := by
  obtain ⟨b, hselect, hkey⟩ := (takes_get style).exists_select_key context hk
  have hrun := run_get hkey session.store
  rw [numbers]
  cases hv : session.store.values[k]? with
  | some n =>
    rw [hv] at hrun
    exact h.execute_of_run_ok hselect hrun h.output
  | none =>
    rw [hv] at hrun
    exact h.execute_of_run_error hselect hrun

theorem execute_delete (hname : Takes style name key .delete) (context : Context) (hk : IsKey k) :
    session.execute context (name ++ " " ++ k) =
      if (session.numbers k).isSome then (.ok [s!"deleted {k}"], session.drop k)
      else (.error (noValue k), session) := by
  obtain ⟨b, hselect, hkey⟩ := hname.exists_select_key context hk
  have hrun := run_delete hkey session.store
  rw [numbers]
  by_cases hv : session.store.values[k]?.isSome
  · rw [if_pos hv] at hrun ⊢
    exact h.execute_of_run_ok hselect hrun h.output
  · rw [if_neg hv] at hrun ⊢
    exact h.execute_of_run_error hselect hrun

theorem execute_list (context : Context) :
    session.execute context "list" = (.ok (session.entries.map Prod.fst), session) := by
  obtain ⟨b, hselect, hflag⟩ := exists_select_list style context
  have hrun := run_list b session.store
  rw [hflag] at hrun
  exact h.execute_of_run_ok hselect hrun h.output

theorem execute_list_verbose (context : Context) :
    session.execute context "list -v" =
      (.ok (session.entries.map fun e => entry e.1 e.2), session) := by
  obtain ⟨b, hselect, hflag⟩ := exists_select_list_verbose style context
  have hrun := run_list b session.store
  rw [hflag] at hrun
  exact h.execute_of_run_ok hselect hrun h.output

theorem execute_say (context : Context) (s : String) :
    session.execute context s!"say {String.ofList (Quoted.write s.toList)}" =
      (.ok [s], session) := by
  obtain ⟨b, hselect, htext⟩ := exists_select_say style context s
  exact h.execute_of_run_ok hselect (run_say htext session.store) h.output

theorem execute_echo (context : Context) (ht : t ≠ "") :
    session.execute context s!"echo {t}" = (.ok [t], session) := by
  obtain ⟨b, hselect, htext⟩ := exists_select_echo style context ht
  exact h.execute_of_run_ok hselect (run_echo htext session.store) h.output

end Settled

/-! ### Refinement -/

/-- The commands of a session, in a context, act on its numbers as a map from words to numbers. -/
structure RefinesMap (session : Session) (context : Context) : Prop where
  /-- `set` changes the number of its word, and of no other. -/
  set : ∀ k n, IsKey k → 0 ≤ n → n ≤ 1000 → ∃ after,
    session.execute context s!"set {k} {n}" = (.ok [s!"{k} = {n}"], after) ∧
      after.numbers = Function.update session.numbers k (some n) ∧
      after.store.enabled = session.store.enabled
  /-- `get` tells the number of its word. -/
  get : ∀ k, IsKey k → ∀ n : Int,
    (session.execute context s!"get {k}").1 = .ok [toString n] ↔ session.numbers k = some n
  /-- Without a number it fails. -/
  get_none : ∀ k, IsKey k → session.numbers k = none →
    (session.execute context s!"get {k}").1 = .error (.action s!"no value for '{k}'")
  /-- In any case it changes nothing. -/
  get_same : ∀ k, IsKey k → (session.execute context s!"get {k}").2 = session
  /-- `del` tells that it has deleted a word exactly if the word was there. -/
  del : ∀ k, IsKey k →
    ((session.execute context s!"del {k}").1 = .ok [s!"deleted {k}"] ↔ (session.numbers k).isSome)
  /-- Then it forgets the word, and no other. -/
  del_some : ∀ k, IsKey k → (session.numbers k).isSome →
    (session.execute context s!"del {k}").2.numbers = Function.update session.numbers k none ∧
      (session.execute context s!"del {k}").2.store.enabled = session.store.enabled
  /-- Otherwise it fails and changes nothing. -/
  del_none : ∀ k, IsKey k → session.numbers k = none →
    session.execute context s!"del {k}" = (.error (.action s!"no value for '{k}'"), session)
  /-- `rm` does what `del` does. -/
  rm : ∀ k, IsKey k → session.execute context s!"rm {k}" = session.execute context s!"del {k}"
  /-- `list` and `list -v` tell all words in the order of their bytes. -/
  list : ∃ entries : List (String × Int),
    entries.Pairwise (fun x y => bytesOf x.1 < bytesOf y.1) ∧
      (∀ k n, (k, n) ∈ entries ↔ session.numbers k = some n) ∧
      session.execute context "list" = (.ok (entries.map Prod.fst), session) ∧
      session.execute context "list -v" =
        (.ok (entries.map fun e => s!"{e.1} = {e.2}"), session)
  /-- `say` repeats every text that is quoted behind it. -/
  say : ∀ s : String,
    session.execute context s!"say {String.ofList (Quoted.write s.toList)}" = (.ok [s], session)
  /-- `echo` repeats every text that stands behind it. -/
  echo : ∀ t, t ≠ "" → session.execute context s!"echo {t}" = (.ok [t], session)

/-- **A session that lines have led to behaves as a map from words to numbers**, whatever the lines
were, and in every context. -/
theorem Reachable.refinesMap (h : session.Reachable) (context : Context) :
    session.RefinesMap context := by
  obtain ⟨style, hs⟩ := h.exists_settled
  have hdel : ∀ k, IsKey k → session.execute context s!"del {k}" =
      if (session.numbers k).isSome then (.ok [s!"deleted {k}"], session.drop k)
      else (.error (noValue k), session) :=
    fun k hk => hs.execute_delete (takes_del style) context hk
  constructor
  case set =>
    intro k n hk hleast hgreatest
    exact ⟨_, hs.execute_set context hk hleast hgreatest, numbers_put session k n, rfl⟩
  case get =>
    intro k hk n
    rw [hs.execute_get context hk]
    cases session.numbers k with
    | none => simp
    | some m =>
      constructor
      · intro heq
        exact congrArg some (toString_int_inj (List.head_eq_of_cons_eq (Except.ok.inj heq)))
      · rintro ⟨⟩
        rfl
  case get_none =>
    intro k hk hnone
    rw [hs.execute_get context hk, hnone]
    rfl
  case get_same =>
    intro k hk
    rw [hs.execute_get context hk]
  case del =>
    intro k hk
    rw [hdel k hk]
    by_cases hv : (session.numbers k).isSome <;> simp [hv]
  case del_some =>
    intro k hk hv
    rw [hdel k hk, if_pos hv]
    exact ⟨numbers_drop session k, rfl⟩
  case del_none =>
    intro k hk hnone
    rw [hdel k hk, hnone]
    rfl
  case rm =>
    intro k hk
    rw [hdel k hk]
    exact hs.execute_delete (takes_rm style) context hk
  case list =>
    exact ⟨session.entries, session.pairwise_entries, session.mem_entries_iff,
      hs.execute_list context, hs.execute_list_verbose context⟩
  case say => exact hs.execute_say context
  case echo =>
    intro t ht
    exact hs.execute_echo context ht

/-- The first line puts a number under a word. -/
theorem refinesMap_after_set :
    ∃ session : Session, session.Reachable ∧ session.numbers "a" = some 5 ∧
      session.RefinesMap .empty := by
  have hnew : (Session.new {}).Reachable := .new {}
  obtain ⟨after, hset, hnumbers, -⟩ := (Reachable.refinesMap hnew .empty).set "a" 5
    (by decide) (by decide) (by decide)
  have hafter : after.Reachable := hnew.execute hset
  exact ⟨after, hafter, by rw [hnumbers, Function.update_self], Reachable.refinesMap hafter .empty⟩

end Session

end CommandGrammar.Store
