import CommandGrammar.Proofs.Grammar.Redirect
import CommandGrammar.Proofs.Match.Route
import CommandGrammar.Proofs.Table.LastWrite

/-!
# What a match stands for

This module says what the line looks like along the route of a match: a sequence of visited nodes,
each a child of the one before or of what that one redirects to, each read from where the one before
and a separator end (`Tree.Path`).

Main statement: behind every match of a dispatcher that can be built there is such a path from the
root, and the match says exactly what the path says (`Dispatcher.exists_explains_of_matchAt`): where
reading stopped, at which node, the last value of every argument, all flags in order, and how far
the literals reach.

The proof is an induction on the route. Each of its steps is one visit, which is written down once
(`Tree.exists_visits_of_step`), so the trail of the match is what the visits write down one after the
other (`Tree.exists_path_of_route`). What that amounts to is then a matter of the visits alone.
-/

namespace CommandGrammar

variable {κ : Type}

/-! ### The next token -/

/-- Behind the next token the next part begins, with less left to read. -/
theorem Cursor.exists_nextPart?_of_token (c : Cursor) (hc : c.rest ≠ []) :
    ∃ next, (c.skipBytes (byteLength c.token)).nextPart? = some next ∧
      next.rest.length < c.rest.length := by
  have hle := (c.advances_skipBytes (byteLength c.token)).length_rest_le
  have hpos := List.length_pos_iff.2 hc
  have hdrop : c.rest.dropWhile (· != separator) =
      (c.skipBytes (byteLength c.token)).rest := by
    have hrest := c.skipBytes_token.1
    nth_rewrite 1 [← List.takeWhile_append_dropWhile (p := (· != separator)) (l := c.rest)] at hrest
    exact List.append_cancel_left hrest
  generalize c.skipBytes (byteLength c.token) = after at hle hdrop ⊢
  have hpart : ∃ next, after.nextPart? = some next := by
    unfold nextPart? peek
    cases hafter : after.rest with
    | nil => exact ⟨after, rfl⟩
    | cons first rest =>
      have hfirst := List.head?_dropWhile_not (· != separator) c.rest
      rw [hdrop, hafter] at hfirst
      have hfirst : first = separator := by simpa using hfirst
      exact ⟨after.advance 1, by simp [hfirst]⟩
  obtain ⟨next, hnext⟩ := hpart
  refine ⟨next, hnext, ?_⟩
  rcases rest_of_nextPart? hnext with hnil | hlt
  · rw [hnil]
    exact hpos
  · exact Nat.lt_of_lt_of_le hlt hle

/-! ### Visits -/

/-- What was read at a node. -/
inductive Part where
  /-- The name of a literal. -/
  | literal (name : String)
  /-- The value of an argument. -/
  | argument (a : Argument) (value : Value)
  /-- A flag. -/
  | flag (c : Char)

/-- The kind of a node at which a part can be read. -/
def Part.kind : Part → Kind
  | literal name => .literal name
  | argument a _ => .argument a
  | flag c => .flag c

/-- A node, what was read there, and from where to where. -/
structure Visit where
  /-- The node. -/
  id : NodeId
  /-- What was read. -/
  part : Part
  /-- Where it begins. -/
  start : Cursor
  /-- Where it ends. -/
  stop : Cursor

namespace Visit

/-- The span of what was read. -/
def span (v : Visit) : Span := v.start.spanTo v.stop

/-- Whether a flag was read. -/
def isFlag (v : Visit) : Bool := v.part.kind.isFlag

/-- What stands in the line is what was read. -/
def Reads (context : Context) (v : Visit) : Prop :=
  match v.part with
  | .literal name => v.start.slice? v.span = some name.toList
  | .argument a value => a.type.read context v.start = .ok (value, v.stop)
  | .flag c => v.start.slice? v.span = some ['-', c]

/-- What was read is written down. -/
def record (t : Trail) (v : Visit) : Trail :=
  match v.part with
  | .literal _ => t.addLiteral v.span
  | .argument a value => t.addArgument a v.span value
  | .flag c => t.addFlag v.span c

/-- The binding of an argument, if that is what was read. -/
def binding? (key : ArgumentKey) (v : Visit) : Option Binding :=
  match v.part with
  | .argument a value => if a.key = key then some ⟨v.span, value⟩ else none
  | _ => none

/-- The flag, if one was read. -/
def flagHit? (v : Visit) : Option FlagHit :=
  match v.part with
  | .flag c => some ⟨v.span, c⟩
  | _ => none

/-- Where the literal ends, if one was read. -/
def literalStop? (v : Visit) : Option Nat :=
  match v.part with
  | .literal _ => some v.stop.index
  | _ => none

theorem context_record (t : Trail) (v : Visit) : (v.record t).context = t.context := by
  unfold record
  split <;> rfl

theorem flags_record (t : Trail) (v : Visit) :
    (v.record t).flags = t.flags ++ v.flagHit?.toList := by
  obtain ⟨id, part, start, stop⟩ := v
  cases part with
  | literal name => exact (List.append_nil t.flags).symm
  | argument a value => exact (List.append_nil t.flags).symm
  | flag c => rfl

theorem find?_record (t : Trail) (v : Visit) (key : ArgumentKey) :
    (v.record t).arguments.find? key = (v.binding? key).or (t.arguments.find? key) := by
  obtain ⟨id, part, start, stop⟩ := v
  cases part with
  | literal name => rfl
  | argument a value =>
    simp only [record, binding?, Trail.addArgument, Table.find?_insert]
    split <;> rfl
  | flag c => rfl

/-- A literal that does not lie before the others moves their end. -/
theorem literals_record (t : Trail) (v : Visit) (hstart : t.literals.start ≤ v.start.index)
    (hstop : t.literals.stop ≤ v.stop.index) :
    (v.record t).literals = ⟨t.literals.start, v.literalStop?.getD t.literals.stop⟩ := by
  obtain ⟨id, part, start, stop⟩ := v
  cases part with
  | literal name =>
    simp only [record, literalStop?, Trail.addLiteral, Span.hull, span, Cursor.spanTo,
      Option.getD_some]
    rw [Nat.min_eq_left hstart, Nat.max_eq_right hstop]
  | argument a value => rfl
  | flag c => rfl

end Visit

/-! ### Trails -/

namespace Trail

/-- What a sequence of visits writes down. -/
def recordAll (t : Trail) (visits : List Visit) : Trail := visits.foldl Visit.record t

theorem recordAll_cons (t : Trail) (v : Visit) (visits : List Visit) :
    t.recordAll (v :: visits) = (v.record t).recordAll visits := rfl

theorem context_recordAll (t : Trail) (visits : List Visit) :
    (t.recordAll visits).context = t.context := by
  induction visits generalizing t with
  | nil => rfl
  | cons v visits ih => rw [recordAll_cons, ih, Visit.context_record]

theorem flags_recordAll (t : Trail) (visits : List Visit) :
    (t.recordAll visits).flags = t.flags ++ visits.filterMap Visit.flagHit? :=
  foldl_eq_append_filterMap (fun t : Trail => t.flags) _ Visit.flags_record t visits

theorem find?_recordAll (t : Trail) (visits : List Visit) (key : ArgumentKey) :
    (t.recordAll visits).arguments.find? key =
      (visits.filterMap (Visit.binding? key)).getLast?.or (t.arguments.find? key) :=
  foldl_eq_getLast? (fun t : Trail => t.arguments.find? key) _
    (fun t v => Visit.find?_record t v key) t visits

end Trail

namespace Tree

variable {tree : Tree κ} {context : Context} {id child : NodeId} {anchor : Option NodeId}
  {c d : Cursor} {t : Trail} {m : Match} {v : Visit} {visits : List Visit}

/-! ### Paths -/

/-- The node below which reading goes on behind a node. -/
def onward (tree : Tree κ) (id : NodeId) : NodeId := (tree.redirect? id).getD id

/-- A visit is to a node that may be used, and reads what the node stands for. -/
structure Visits (tree : Tree κ) (context : Context) (v : Visit) : Prop where
  /-- The node may be used. -/
  canUse : ∃ node, tree.node? v.id = some node ∧ node.canUse context = true
  /-- The node stands for what is read. -/
  kind : tree.kind? v.id = some v.part.kind
  /-- Reading moves forward. -/
  advances : v.start.Advances v.stop
  /-- What stands in the line is what is read. -/
  reads : v.Reads context

/-- From a node and a place, a sequence of visits leads to a place: each one is to a child, begins
where the last one and a separator end, and is followed by the visits below it. -/
inductive Path (tree : Tree κ) (context : Context) :
    NodeId → Cursor → List Visit → Cursor → Prop where
  /-- Nothing is visited. -/
  | nil (id : NodeId) (c : Cursor) : Path tree context id c [] c
  /-- A child is visited. -/
  | cons {id : NodeId} {v : Visit} {visits : List Visit} {next stop : Cursor} :
      tree.IsChild id v.id → tree.Visits context v → v.stop.Gap next →
      Path tree context (tree.onward v.id) next visits stop →
      Path tree context id v.start (v :: visits) stop

theorem Path.advances (h : tree.Path context id c visits d) : c.Advances d := by
  induction h with
  | nil _ c => exact .refl c
  | cons _ hv hg _ ih => exact (hv.advances.trans hg.advances).trans ih

/-- The name of a child that is looked at as a literal is the next token. -/
theorem token_of_relevant (hw : tree.WellFormed) {node childNode : Node κ} {name : String}
    {ending : Ending κ} (hn : tree.node? id = some node) (hm : child ∈ node.relevantChildren c)
    (hc : tree.node? child = some childNode)
    (hs : childNode.symbol? = some (.piece (.literal name) ending)) : name.toList = c.token := by
  have hi := hw.indexed id node hn
  have hkind : tree.kind? child = some (.literal name) := by
    rw [kind?, symbol?_of_node? hc, hs]
    rfl
  unfold Node.relevantChildren at hm
  split at hm
  · rename_i literal hl
    obtain rfl := List.mem_singleton.1 hm
    have hname := ((hi.byName _ _).1 ((hi.literals _ _).1 hl).1).2
    rw [name?, hkind] at hname
    have hname : name = String.ofList c.token := Option.some.inj hname
    rw [hname, String.toList_ofList]
  · -- neither an argument nor a flag is a literal
    rw [List.mem_append, hi.arguments, hi.flags] at hm
    rcases hm with hm | hm
    · have := (List.mem_filter.1 hm).2
      simp [hasKind, hkind, Kind.isArgument] at this
    · have := (List.mem_filter.1 hm).2
      simp [hasKind, hkind, Kind.isFlag] at this

/-- What a symbol reads stands in the line, and is what it writes down. -/
theorem exists_part_of_read {symbol : Symbol κ} {u : Trail} (id : NodeId)
    (hl : ∀ name ending, symbol = .piece (.literal name) ending → name.toList = c.token)
    (h : symbol.read context c t = .ok (some (d, u))) :
    ∃ part : Part, part.kind = symbol.kind ∧ (⟨id, part, c, d⟩ : Visit).Reads context ∧
      u = Visit.record t ⟨id, part, c, d⟩ := by
  rcases symbol with ⟨name | a, ending⟩ | f
  · have hname := hl name ending rfl
    simp only [Symbol.read, hname, Except.ok.injEq, Option.some.injEq, Prod.mk.injEq] at h
    obtain ⟨rfl, rfl⟩ := h
    obtain ⟨hrest, hconsumed⟩ := c.skipBytes_token
    refine ⟨.literal name, rfl, ?_, rfl⟩
    exact (Cursor.slice?_spanTo hrest hconsumed).trans (congrArg some hname.symm)
  · simp only [Symbol.read] at h
    split at h
    · rename_i value after hread
      simp only [Except.ok.injEq, Option.some.injEq, Prod.mk.injEq] at h
      obtain ⟨rfl, rfl⟩ := h
      exact ⟨.argument a value, rfl, hread, rfl⟩
    · cases h
  · simp only [Symbol.read, Except.ok.injEq, Option.map_eq_some_iff, Prod.mk.injEq] at h
    obtain ⟨after, hread, rfl, rfl⟩ := h
    obtain ⟨hrest, hconsumed⟩ := Cursor.rest_of_readFlag? hread
    exact ⟨.flag f, rfl, Cursor.slice?_spanTo hrest hconsumed, rfl⟩

/-- **A step is a visit.** -/
theorem exists_visits_of_step (hw : tree.WellFormed) {node : Node κ} {s : Step κ}
    (hn : tree.node? id = some node) (hm : child ∈ node.relevantChildren c)
    (h : tree.step context child c t = .ok (some s)) :
    ∃ v : Visit, v.id = child ∧ v.start = c ∧ tree.IsChild id v.id ∧ tree.Visits context v ∧
      v.stop.Gap s.cursor ∧ s.trail = v.record t ∧ v.isFlag = s.node.isFlag := by
  obtain ⟨hc, hu, symbol, after, hs, hr, hp⟩ := exists_read_of_step h
  have hkind : tree.kind? child = some symbol.kind := by
    rw [kind?, symbol?_of_node? hc, hs]
    rfl
  have hliteral : ∀ name ending, symbol = .piece (.literal name) ending →
      name.toList = c.token := by
    rintro name ending rfl
    exact token_of_relevant hw hn hm hc hs
  obtain ⟨part, hpart, hreads, htrail⟩ := exists_part_of_read child hliteral hr
  refine ⟨⟨child, part, c, after⟩, rfl, rfl, hw.isChild_of_relevant hn hm, ?_,
    Cursor.gap_of_nextPart? hp, htrail, ?_⟩
  · exact ⟨⟨s.node, hc, hu⟩, hpart ▸ hkind, Symbol.advances_of_read hr, hreads⟩
  · rw [Visit.isFlag, hpart, Node.isFlag, hs]
    rcases symbol with ⟨_ | _, _⟩ | _ <;> rfl

/-- Along a path the literals reach from where they began to the end of the last one. -/
theorem Path.literals_recordAll (h : tree.Path context id c visits d)
    (hstart : t.literals.start ≤ t.literals.stop) (hstop : t.literals.stop ≤ c.index) :
    (t.recordAll visits).literals =
      ⟨t.literals.start, (visits.filterMap Visit.literalStop?).getLast?.getD t.literals.stop⟩ := by
  induction h generalizing t with
  | nil _ c => rfl
  | @cons id v visits next stop _ hv hg _ ih =>
    have hvisit := hv.advances.index_le
    have hgap := hg.advances.index_le
    have hrecord := v.literals_record t (Nat.le_trans hstart hstop) (Nat.le_trans hstop hvisit)
    have hreach : t.literals.stop ≤ v.literalStop?.getD t.literals.stop ∧
        v.literalStop?.getD t.literals.stop ≤ v.stop.index := by
      unfold Visit.literalStop?
      split
      · exact ⟨Nat.le_trans hstop hvisit, Nat.le_refl _⟩
      · exact ⟨Nat.le_refl _, Nat.le_trans hstop hvisit⟩
    rw [Trail.recordAll_cons, ih, hrecord]
    · cases hl : v.literalStop? with
      | none => rw [List.filterMap_cons_none hl, Option.getD_none]
      | some stop =>
        rw [List.filterMap_cons_some hl, List.getLast?_cons, Option.getD_some, Option.getD_some]
    · rw [hrecord]
      exact Nat.le_trans hstart hreach.1
    · rw [hrecord]
      exact Nat.le_trans hreach.2 hgap

/-! ### Routes are paths -/

/-- The node at which visits end: the one behind the last visit, or, if they use up the line, behind
the last one that is not to a flag, if there is one. -/
def endNode? (tree : Tree κ) (complete : Bool) (visits : List Visit) : Option NodeId :=
  let pieces := visits.filter fun v => !v.isFlag
  let last := if complete then pieces.getLast?.or visits.getLast? else visits.getLast?
  last.map fun v => tree.onward v.id

/-- The node at which the search ends that goes on with some visits from a node and an anchor. -/
def endFrom (tree : Tree κ) (complete : Bool) (id : NodeId) (anchor : Option NodeId)
    (visits : List Visit) : NodeId :=
  let pieces := visits.filter fun v => !v.isFlag
  let piece? := (pieces.getLast?.map fun v => tree.onward v.id).or anchor
  let last? := visits.getLast?.map fun v => tree.onward v.id
  ((if complete then piece? else none).or last?).getD id

theorem endFrom_cons (tree : Tree κ) (complete : Bool) (id : NodeId) (anchor : Option NodeId)
    (v : Visit) (visits : List Visit) :
    tree.endFrom complete id anchor (v :: visits) =
      tree.endFrom complete (tree.onward v.id)
        (if v.isFlag then anchor else some (tree.onward v.id)) visits := by
  have hlast : ∀ l : List Visit, ((v :: l).getLast?.map fun v => tree.onward v.id) =
      (l.getLast?.map fun v => tree.onward v.id).or (some (tree.onward v.id)) := by
    intro l
    rw [List.getLast?_cons]
    cases l.getLast? <;> rfl
  unfold endFrom
  cases hf : v.isFlag with
  | true => cases complete <;> simp [hf, hlast]
  | false => cases complete <;> simp [hf, hlast]

theorem endNode?_eq_endFrom (tree : Tree κ) (complete : Bool) (id : NodeId) (hv : visits ≠ []) :
    tree.endNode? complete visits = some (tree.endFrom complete id none visits) := by
  obtain ⟨v, hlast⟩ := List.getLast?_isSome.2 hv |> Option.isSome_iff_exists.1
  unfold endNode? endFrom
  cases complete <;> cases h : (visits.filter fun v => !v.isFlag).getLast? <;> simp [hlast, h]

theorem onward_of_redirect? {target : NodeId} (h : tree.redirect? id = some target) :
    tree.onward id = target := by
  rw [onward, h]
  rfl

theorem onward_of_redirect?_none (h : tree.redirect? id = none) : tree.onward id = id := by
  rw [onward, h]
  rfl

theorem isFlag_of_redirect? {node : Node κ} {target : NodeId} (h : node.redirect? = some target) :
    node.isFlag = false := by
  obtain ⟨symbol?, requirement, children⟩ := node
  rcases symbol? with _ | _ | _
  · rfl
  · rfl
  · cases h

/-- **A route is a path** on which every visit is written down once, and which ends at the node of
the match. It visits a node, unless it ends where it begins. -/
theorem exists_path_of_route (hw : tree.WellFormed) (h : tree.Route context id anchor c t m)
    (hanchor : c.readable = true ∨ anchor = some id) :
    ∃ visits, tree.Path context id c visits m.cursor ∧ m.trail = t.recordAll visits ∧
      m.node = tree.endFrom m.isComplete id anchor visits ∧ (visits = [] → id ≠ root) := by
  induction h with
  | @here id anchor c t node hn hc =>
    refine ⟨[], .nil id c, rfl, ?_, fun _ => hw.ne_root_of_isChild hn hc⟩
    rcases hanchor with hc | rfl
    · simp [endFrom, Match.isComplete, hc]
    · cases hc : c.readable <;> simp [endFrom, Match.isComplete, hc]
  | @leaf id child anchor c t node s hn hm hs hr he =>
    obtain ⟨v, rfl, rfl, hc, hv, hg, ht, hf⟩ := exists_visits_of_step hw hn hm hs
    have honward := onward_of_redirect?_none
      ((redirect?_of_node? (exists_read_of_step hs).1).trans hr)
    refine ⟨[v], .cons hc hv hg (.nil _ _), ht, ?_, fun h => absurd h (List.cons_ne_nil _ _)⟩
    rw [endFrom_cons, honward, hf]
    simp [endFrom, Match.isComplete, he]
  | @descend id child anchor c t node s m hn hm hs hr he _ ih =>
    obtain ⟨v, rfl, rfl, hc, hv, hg, ht, hf⟩ := exists_visits_of_step hw hn hm hs
    have honward := onward_of_redirect?_none
      ((redirect?_of_node? (exists_read_of_step hs).1).trans hr)
    obtain ⟨visits, hpath, htrail, hnode, -⟩ := ih (.inl he)
    refine ⟨v :: visits, .cons hc hv hg (honward.symm ▸ hpath), ?_, ?_,
      fun h => absurd h (List.cons_ne_nil _ _)⟩
    · rw [htrail, ht, Trail.recordAll_cons]
    · rw [hnode, endFrom_cons, honward, hf]
  | @redirect id child target anchor c t node s m hn hm hs hr _ ih =>
    obtain ⟨v, rfl, rfl, hc, hv, hg, ht, hf⟩ := exists_visits_of_step hw hn hm hs
    have honward := onward_of_redirect?
      ((redirect?_of_node? (exists_read_of_step hs).1).trans hr)
    obtain ⟨visits, hpath, htrail, hnode, -⟩ := ih (.inr rfl)
    refine ⟨v :: visits, .cons hc hv hg (honward.symm ▸ hpath), ?_, ?_,
      fun h => absurd h (List.cons_ne_nil _ _)⟩
    · rw [htrail, ht, Trail.recordAll_cons]
    · rw [hnode, endFrom_cons, honward, hf, isFlag_of_redirect? hr]
      rfl

/-! ### What a match says -/

/-- A match from a place on says what a path of visits from the root says. -/
structure Explains (tree : Tree κ) (context : Context) (c : Cursor) (visits : List Visit)
    (m : Match) : Prop where
  /-- At least one node is visited. -/
  nonempty : visits ≠ []
  /-- The visits lead from the place to the one where the match ends. -/
  path : tree.Path context root c visits m.cursor
  /-- They end at the node of the match. -/
  node : tree.endNode? m.isComplete visits = some m.node
  /-- The context is the one of the line. -/
  context : m.trail.context = context
  /-- An argument has the last value that was read for it, and no other argument has one. -/
  arguments : ∀ key,
    m.trail.arguments.find? key = (visits.filterMap (Visit.binding? key)).getLast?
  /-- The flags are those that were read, in order. -/
  flags : m.trail.flags = visits.filterMap Visit.flagHit?
  /-- The literals reach from the place to the end of the last one, or not anywhere. -/
  literals : m.trail.literals =
    ⟨c.index, (visits.filterMap Visit.literalStop?).getLast?.getD c.index⟩

/-- Nothing is matched at the end of a line. -/
theorem readable_of_matchAt (hw : tree.WellFormed) (h : tree.matchAt context c = .ok (some m)) :
    c.readable = true := by
  rw [Cursor.readable, Bool.not_eq_true', List.isEmpty_eq_false_iff]
  intro hnil
  rw [matchAt, matchFrom] at h
  split at h
  · cases h
  · rename_i node hn
    have hroot : node.isChild ≠ true := fun hc => hw.ne_root_of_isChild (node_eq_ok.1 hn) hc rfl
    simp [hnil, hroot] at h

/-- **Behind every match there is a path that explains it.** -/
theorem exists_explains (hw : tree.WellFormed) (h : tree.matchAt context c = .ok (some m)) :
    ∃ visits, tree.Explains context c visits m := by
  have hreadable := readable_of_matchAt hw h
  obtain ⟨visits, hpath, htrail, hnode, hroot⟩ :=
    exists_path_of_route hw (route_of_matchFrom h) (.inl hreadable)
  have hne : visits ≠ [] := fun hnil => hroot hnil rfl
  have hliterals := hpath.literals_recordAll (t := .start context c) (Nat.le_refl _) (Nat.le_refl _)
  refine ⟨visits, hne, hpath, ?_, ?_, ?_, ?_, ?_⟩
  · rw [endNode?_eq_endFrom tree _ root hne, hnode]
  · rw [htrail, Trail.context_recordAll]
    rfl
  · intro key
    rw [htrail, Trail.find?_recordAll]
    exact Option.or_none
  · rw [htrail, Trail.flags_recordAll]
    rfl
  · rw [htrail, hliterals]
    rfl

end Tree

namespace Dispatcher

/-- **Behind every match of a dispatcher that can be built there is a path from the root that
explains it**, from whatever place on the line is read: every visited node may be used and reads
what it stands for, one separator lies between two of them, and the match says what was read. -/
theorem exists_explains_of_matchAt {d : Dispatcher κ} {context : Context} {c : Cursor} {m : Match}
    (h : d.Reachable) (hm : d.tree.matchAt context c = .ok (some m)) :
    ∃ visits, d.tree.Explains context c visits m :=
  Tree.exists_explains h.tree.wellFormed hm

/-- A literal with an argument and a flag below it, and another name for it. -/
def wordWithAlias : Except Violation (Dispatcher Unit) := do
  let word : CommandDraft Unit := argument ⟨⟨"word", 0⟩, .text .word⟩
  let word ← word.child ⟨.flag 'v', none, []⟩
  let foo ← (literal "foo").child word.toSpec
  let (d, id) ← ({} : Dispatcher Unit).register foo
  let f ← (literal "f").redirects id
  let (d, _) ← d.register f
  return d

theorem reachable_of_wordWithAlias {d : Dispatcher Unit} (h : wordWithAlias = .ok d) :
    d.Reachable := by
  obtain ⟨word, hword, h⟩ := exists_of_bind_eq_ok h
  obtain ⟨foo, hfoo, h⟩ := exists_of_bind_eq_ok h
  obtain ⟨⟨d₁, id⟩, h₁, h⟩ := exists_of_bind_eq_ok h
  obtain ⟨f, hf, h⟩ := exists_of_bind_eq_ok h
  obtain ⟨⟨d₂, _⟩, h₂, h⟩ := exists_of_bind_eq_ok h
  cases h
  have hword := (CommandDraft.Drafted.argument _).child (Spec.drafted_of_no_children _ none) hword
  have hfoo := (CommandDraft.Drafted.literal "foo").child (.command hword) hfoo
  have hf := (CommandDraft.Drafted.literal "f").redirects hf
  exact ((Reachable.start {}).register hfoo h₁).register hf h₂

/-- The line ends with a flag, and the match at the argument. -/
theorem exists_explains_of_matchAt_wordWithAlias :
    ∃ (d : Dispatcher Unit) (m : Match) (visits : List Visit), wordWithAlias = .ok d ∧ d.Reachable ∧
      d.tree.matchAt .empty (.atStart "f ann -v") = .ok (some m) ∧ m.node = 2 ∧
      m.isComplete = true ∧ d.tree.Explains .empty (.atStart "f ann -v") visits m := by
  have hrun : wordWithAlias.map (fun d =>
      (d.tree.matchAt .empty (.atStart "f ann -v")).map
        (Option.map fun m => (m.node, m.isComplete))) = .ok (.ok (some (2, true))) := by
    cbv
  obtain ⟨d, h, hmatch⟩ := exists_of_map_eq_ok hrun
  obtain ⟨m?, hm, hnode⟩ := exists_of_map_eq_ok hmatch
  obtain ⟨m, rfl, he⟩ := Option.map_eq_some_iff.1 hnode
  obtain ⟨hnode, hcomplete⟩ := Prod.mk.inj he
  have hd := reachable_of_wordWithAlias h
  obtain ⟨visits, hvisits⟩ := exists_explains_of_matchAt hd hm
  exact ⟨d, m, visits, h, hd, hm, hnode, hcomplete, hvisits⟩

end Dispatcher

end CommandGrammar
