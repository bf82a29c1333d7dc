import CommandGrammar.Proofs.Dispatcher.Anchor
import CommandGrammar.Proofs.Store.Grammar

/-!
# What a line can reach

Below the root of the store's grammar there are only finitely many sequences of nodes that a line can
visit (`ways`), and all that is needed to write them down stands in the outlines.

Main statement: a line that selects a verb visits the nodes of a way that ends at the verb, one after
the other, and the verb gets what was read there (`exists_visited_of_select`). So its verb says what
stands in it: `set`, `get` and `delete` are given a key, behind the name of the command and a
separator, and `set` besides a number within its bounds (`exists_of_select_set`,
`exists_of_select_delete` and so on). `status` and `reset` are selected for administrators only
(`isAdmin_of_select`), although the node of `reset` has no requirement: every way to it passes the
node that has one.
-/

namespace CommandGrammar

/-! ### Visits to literals and arguments -/

namespace Tree

variable {κ : Type} {tree : Tree κ} {context : Context} {v : Visit} {name : String} {a : Argument}

theorem Visits.part_of_literal (h : tree.Visits context v)
    (hk : tree.kind? v.id = some (.literal name)) : v.part = .literal name := by
  obtain ⟨id, part, start, stop⟩ := v
  have hkind : part.kind = .literal name := Option.some.inj (h.kind.symm.trans hk)
  cases part <;> simp_all [Part.kind]

/-- The name of a literal stands where it is read. -/
theorem Visits.rest_of_literal (h : tree.Visits context v)
    (hk : tree.kind? v.id = some (.literal name)) : v.start.rest = name.toList ++ v.stop.rest := by
  obtain ⟨read, hrest, hconsumed⟩ := h.advances
  have hreads := h.reads
  rw [Visit.Reads, h.part_of_literal hk] at hreads
  have hslice := Cursor.slice?_spanTo hrest hconsumed
  rw [hrest, Option.some.inj (hslice.symm.trans hreads)]

/-- An argument has the value that is read there. -/
theorem Visits.exists_value (h : tree.Visits context v)
    (hk : tree.kind? v.id = some (.argument a)) :
    ∃ value, v.part = .argument a value ∧ a.type.read context v.start = .ok (value, v.stop) := by
  obtain ⟨id, part, start, stop⟩ := v
  have hkind : part.kind = .argument a := Option.some.inj (h.kind.symm.trans hk)
  cases part with
  | literal name => cases hkind
  | argument b value =>
    obtain rfl : b = a := Kind.argument.inj hkind
    exact ⟨value, rfl, h.reads⟩
  | flag c => cases hkind

/-- One visit begins where the one before and a separator end. -/
theorem Path.gap_of_cons_cons {id : NodeId} {c d : Cursor} {w : Visit} {visits : List Visit}
    (h : tree.Path context id c (v :: w :: visits) d) : c = v.start ∧ v.stop.Gap w.start := by
  cases h with
  | cons _ _ hg hpath =>
    cases hpath with
    | cons _ _ _ _ => exact ⟨rfl, hg⟩

end Tree

/-- With text left to read behind it, a gap is a separator. -/
theorem Cursor.Gap.rest_eq_cons {c d : Cursor} (h : c.Gap d) (hd : d.rest ≠ []) :
    c.rest = separator :: d.rest := by
  rcases h with ⟨hrest, -⟩ | ⟨hnil, rfl⟩
  · exact hrest
  · exact absurd hnil hd

namespace Store

variable {context : Context} {line name k t : String} {id child : NodeId} {a : Argument} {verb : Verb}
  {b : Bindings} {n : Int}

/-! ### Ways -/

/-- The ending of a node, if it is a literal or an argument. -/
def endingAt (id : NodeId) : Option (Ending Verb) :=
  (outlines[id]?.bind Node.Outline.symbol?).bind Symbol.ending?

/-- The children of a node. -/
def childrenAt (id : NodeId) : List NodeId :=
  match outlines[id]? with
  | some o => o.literals.map Prod.snd ++ (o.arguments ++ o.flags)
  | none => []

/-- Where reading goes on behind a node. -/
def onwardFrom (id : NodeId) : NodeId := ((endingAt id).bind Ending.redirect).getD id

/-- The sequences of at most `length` nodes that can be visited below a node. -/
def waysBelow : Nat → NodeId → List (List NodeId)
  | 0, _ => [[]]
  | length + 1, id =>
    [] :: (childrenAt id).flatMap fun child => (waysBelow length (onwardFrom child)).map (child :: ·)

/-- The sequences of nodes that can be visited below a node; there are no longer ones. -/
def ways (id : NodeId) : List (List NodeId) := waysBelow 3 id

theorem nil_mem_ways (id : NodeId) : [] ∈ ways id := List.mem_cons_self

theorem cons_mem_ways : ∀ id < outlines.length, ∀ child ∈ childrenAt id,
    ∀ way ∈ ways (onwardFrom child), child :: way ∈ ways id := by
  decide

/-- What a node stands for. -/
def kindAt (id : NodeId) : Option Kind := (outlines[id]?.bind Node.Outline.symbol?).map Symbol.kind

/-- The verb at the end of a way. -/
def verbOf (way : List NodeId) : Option Verb :=
  ((way.filter fun id => (endingAt id).isSome).getLast?.bind fun last =>
    endingAt (onwardFrom last)).bind Ending.command

/-- The ways to a verb. -/
def waysTo : Verb → List (List NodeId)
  | .set => [[1, 2, 3]]
  | .get => [[4, 5]]
  | .delete => [[6, 7], [8, 7]]
  | .list => [[9], [9, 10]]
  | .echo => [[11, 12]]
  | .toggle => [[13, 14]]
  | .say => [[15, 16]]
  | .status => [[17]]
  | .reset => [[17, 18]]

theorem filter_ways (verb : Verb) :
    (ways Tree.root).filter (fun way => verbOf way = some verb) = waysTo verb := by
  cases verb <;> decide

theorem mem_waysTo {way : List NodeId} (hway : way ∈ ways Tree.root)
    (hverb : verbOf way = some verb) : way ∈ waysTo verb := by
  rw [← filter_ways, List.mem_filter]
  exact ⟨hway, decide_eq_true hverb⟩

/-! ### What is visited -/

section Visited

variable (style : UsageStyle)

/-- The outline of a node is the one written out. -/
theorem map_outline (id : NodeId) :
    ((dispatcher style).tree.node? id).map Node.outline = outlines[id]? := by
  obtain ⟨d, h, hd⟩ := exists_grammar style
  have hall := outline_of_grammar
  rw [h] at hall
  rw [hd, ← Except.ok.inj hall, List.getElem?_map, Array.getElem?_toList]
  rfl

theorem kind?_of_outline (id : NodeId) :
    (dispatcher style).tree.kind? id = kindAt id := by
  rw [kindAt, ← map_outline style id, Tree.kind?, Tree.symbol?]
  cases (dispatcher style).tree.node? id <;> rfl

theorem ending?_of_outline (id : NodeId) :
    ((dispatcher style).tree.node? id).bind Node.ending? = endingAt id := by
  rw [endingAt, ← map_outline style id]
  cases (dispatcher style).tree.node? id <;> rfl

theorem isTarget_of_outline (id : NodeId) :
    (dispatcher style).tree.isTarget id = (endingAt id).isSome := by
  rw [← ending?_of_outline style id, Tree.isTarget]
  cases (dispatcher style).tree.node? id <;> rfl

theorem onward_of_outline (id : NodeId) :
    (dispatcher style).tree.onward id = onwardFrom id := by
  rw [onwardFrom, ← ending?_of_outline style id, Tree.onward]
  cases hn : (dispatcher style).tree.node? id with
  | none => rw [Tree.redirect?, Tree.symbol?, hn]; rfl
  | some node => rw [Tree.redirect?_of_node? hn]; rfl

theorem commandAt_eq (id : NodeId) :
    (dispatcher style).commandAt id = (endingAt id).bind Ending.command := by
  rw [← ending?_of_outline style id, Dispatcher.commandAt]
  cases (dispatcher style).tree.node? id <;> rfl

theorem lt_length_of_node? {node : Node Verb}
    (hn : (dispatcher style).tree.node? id = some node) : id < outlines.length := by
  have ho := map_outline style id
  rw [hn, Option.map_some] at ho
  exact (List.getElem?_eq_some_iff.1 ho.symm).1

/-- Only children are looked at. -/
theorem mem_childrenAt_of_relevant {node : Node Verb} {c : Cursor}
    (hn : (dispatcher style).tree.node? id = some node) (hm : child ∈ node.relevantChildren c) :
    id < outlines.length ∧ child ∈ childrenAt id := by
  have ho := map_outline style id
  rw [hn, Option.map_some] at ho
  refine ⟨lt_length_of_node? style hn, ?_⟩
  rw [childrenAt, ← ho]
  unfold Node.relevantChildren at hm
  split at hm
  · rename_i literal hl
    rw [List.mem_singleton.1 hm]
    exact List.mem_append_left _ (List.mem_map_of_mem (Table.mem_entries_of_find? hl))
  · exact List.mem_append_right _ hm

theorem isSome_endingAt_of_redirect : ∀ id < outlines.length,
    ((endingAt id).bind Ending.redirect).all (fun target => (endingAt target).isSome) = true := by
  decide

/-- The redirects of the grammar lead to literals and arguments. -/
theorem redirectsLead_dispatcher : (dispatcher style).tree.RedirectsLead := by
  intro id target hr
  obtain ⟨symbol, hs, -⟩ := Option.bind_eq_some_iff.1 hr
  obtain ⟨node, hn, -⟩ := Option.bind_eq_some_iff.1 hs
  have hredirect : (endingAt id).bind Ending.redirect = some target := by
    rw [← ending?_of_outline style id, hn]
    exact (Tree.redirect?_of_node? hn).symm.trans hr
  have hall := isSome_endingAt_of_redirect id (lt_length_of_node? style hn)
  rw [hredirect] at hall
  rw [isTarget_of_outline]
  exact hall

variable {style}

/-- Whatever is found, is found along a way. -/
theorem mem_ways_of_findsBy {q : Search} {path : List NodeId} {m : Match}
    (h : (dispatcher style).tree.FindsBy context q path m) : path ∈ ways q.node := by
  induction h with
  | here => exact nil_mem_ways _
  | leaf _ ht _ _ _ =>
    obtain ⟨-, node, hn, hm⟩ := ht
    obtain ⟨hid, hchild⟩ := mem_childrenAt_of_relevant style hn hm
    exact cons_mem_ways _ hid _ hchild _ (nil_mem_ways _)
  | nested _ hp _ ih =>
    obtain ⟨-, node, hn, hm⟩ := hp.exists_step.1
    obtain ⟨hid, hchild⟩ := mem_childrenAt_of_relevant style hn hm
    rw [hp.node_eq, onward_of_outline] at ih
    exact cons_mem_ways _ hid _ hchild _ ih

variable (style) in
/-- A line visits some nodes, and a verb is run with what is read there. -/
structure Visited (context : Context) (line : String) (verb : Verb) (b : Bindings)
    (visits : List Visit) : Prop where
  /-- The nodes are a way to the verb. -/
  way : visits.map Visit.id ∈ waysTo verb
  /-- They are visited one after the other. -/
  path : ∃ stop, (dispatcher style).tree.Path context Tree.root (.atStart line) visits stop
  /-- There is text left to read at each of them. -/
  readable : ∀ v ∈ visits, v.start.rest ≠ []
  /-- What is read is what the verb gets. -/
  bindings : b = ((Trail.start context (.atStart line)).recordAll visits).toBindings

/-- **A line that selects a verb visits the nodes of a way to it.** -/
theorem exists_visited_of_select
    (h : (dispatcher style).select context line = .ok (some (verb, b))) :
    ∃ visits, Visited style context line verb b visits := by
  have hreach := reachable_dispatcher style
  obtain ⟨id, m, hp, rfl, hm⟩ := Dispatcher.select_eq_ok_some_iff.1 h
  obtain ⟨hcomplete, hb, node, hn, hcommand⟩ := Dispatcher.selectMatch_eq_ok_some_iff.1 hm
  obtain ⟨-, ⟨path, hfinds⟩, hends⟩ := Dispatcher.endsAtLastPiece_of_isComplete hreach
    (redirectsLead_dispatcher style) hp hcomplete
  obtain ⟨last, hlast, hnode⟩ := hends path hfinds
  obtain ⟨visits, rfl, hpath, htrail, hreadable⟩ := hfinds.exists_visits hreach.tree.wellFormed
  refine ⟨visits, mem_waysTo (mem_ways_of_findsBy hfinds) ?_, ⟨_, hpath⟩, hreadable, ?_⟩
  · have hpiece := funext (isTarget_of_outline style)
    rw [Tree.lastPiece?, hpiece] at hlast
    rw [verbOf, hlast, Option.bind_some, ← onward_of_outline style, ← hnode,
      ← commandAt_eq style, Dispatcher.commandAt, hn, Option.bind_some, hcommand]
  · rw [hb, htrail]
    rfl

/-! ### What is read -/

/-- A line says a name and a key: behind the name and a separator the key stands, up to the next
blank. -/
def Says (line name k : String) : Prop :=
  ∃ tail, line.toList = name.toList ++ separator :: (k.toList ++ tail) ∧
    (∀ c ∈ k.toList, isBlank c = false) ∧ Stops inWord tail

/-- A key is read up to the next blank. -/
theorem says_of_read {value : Value} {c d : Cursor}
    (hline : line.toList = name.toList ++ separator :: c.rest)
    (h : key.type.read context c = .ok (value, d)) : ∃ k, value = .text k ∧ Says line name k := by
  have hread : Reading.as .text (readWord c) = .ok (value, d) := h
  obtain ⟨k, hk, hvalue⟩ := Reading.exists_of_as_eq_ok hread
  obtain ⟨rfl, -⟩ := Prod.mk.inj (Except.ok.inj hk)
  refine ⟨_, hvalue.symm, c.rest.dropWhile inWord, ?_, fun x hx => ?_, fun next hnext => ?_⟩
  · rw [String.toList_ofList, List.takeWhile_append_dropWhile, hline]
  · rw [String.toList_ofList] at hx
    have hword := List.mem_takeWhile_imp hx
    simpa [inWord] using hword
  · have hstop := List.head?_dropWhile_not inWord c.rest
    rw [Option.mem_def.1 hnext] at hstop
    exact hstop

theorem exists_of_read_text {mode : TextMode} {v : Value} {c d : Cursor}
    (h : (ArgumentType.text mode).read context c = .ok (v, d)) : ∃ t, v = .text t := by
  cases mode <;>
  · rw [ArgumentType.read] at h
    obtain ⟨t, -, hvalue⟩ := Reading.exists_of_as_eq_ok h
    exact ⟨t, hvalue.symm⟩

/-- A number is read within its bounds. -/
theorem exists_of_read_value {v : Value} {c d : Cursor}
    (h : value.type.read context c = .ok (v, d)) :
    ∃ n, v = .number (.integer .int n) ∧ 0 ≤ n ∧ n ≤ maxValue := by
  obtain ⟨n, rfl, hbounds⟩ := ArgumentType.exists_of_read_integer h
  obtain ⟨hleast, hgreatest⟩ := hbounds _ rfl
  exact ⟨n, rfl, hleast, hgreatest⟩

namespace Visited

variable {visits : List Visit} (h : Visited style context line verb b visits)
include h

theorem find?_eq (a : Argument) :
    b.find? a = (visits.filterMap (Visit.binding? a.key)).getLast?.map Binding.value := by
  rw [h.bindings, Bindings.find?, Trail.find?_recordAll]
  exact congrArg (Option.map Binding.value) Option.or_none

theorem visits_of_mem {v : Visit} (hv : v ∈ visits) : (dispatcher style).tree.Visits context v := by
  obtain ⟨stop, hpath⟩ := h.path
  exact hpath.visits_of_mem hv

/-- What comes behind the name of the command stands behind a separator. -/
theorem toList_eq {v w : Visit} {rest : List Visit} (hvisits : visits = v :: w :: rest)
    (hname : kindAt v.id = some (.literal name)) :
    line.toList = name.toList ++ separator :: w.start.rest := by
  obtain ⟨stop, hpath⟩ := h.path
  have hrest : w.start.rest ≠ [] := h.readable w (by simp [hvisits])
  have hv := h.visits_of_mem (v := v) (by simp [hvisits])
  rw [← kind?_of_outline style] at hname
  rw [hvisits] at hpath
  obtain ⟨hstart, hgap⟩ := hpath.gap_of_cons_cons
  have hline : line.toList = name.toList ++ v.stop.rest := by
    rw [← hv.rest_of_literal hname, ← hstart]
    rfl
  rw [hline, hgap.rest_eq_cons hrest]

/-- An argument gets what is read there. -/
theorem exists_value {v : Visit} (hv : v ∈ visits) (ha : kindAt v.id = some (.argument a)) :
    ∃ value, v.part = .argument a value ∧ a.type.read context v.start = .ok (value, v.stop) := by
  rw [← kind?_of_outline style] at ha
  exact (h.visits_of_mem hv).exists_value ha

/-- Behind a name an argument is read. -/
theorem exists_argument {start last : NodeId} (hway : visits.map Visit.id = [start, last])
    (hname : kindAt start = some (.literal name)) (ha : kindAt last = some (.argument a)) :
    ∃ value, b.find? a = some value ∧ ∃ c d, line.toList = name.toList ++ separator :: c.rest ∧
      a.type.read context c = .ok (value, d) := by
  obtain ⟨v, _, rfl, rfl, hrest⟩ := List.map_eq_cons_iff.1 hway
  obtain ⟨w, _, rfl, rfl, hnil⟩ := List.map_eq_cons_iff.1 hrest
  obtain rfl := List.map_eq_nil_iff.1 hnil
  have hliteral := (h.visits_of_mem List.mem_cons_self).part_of_literal
    ((kind?_of_outline style v.id).trans hname)
  obtain ⟨value, hpart, hread⟩ := h.exists_value (by simp) ha
  refine ⟨value, ?_, w.start, w.stop, h.toList_eq rfl hname, hread⟩
  simp [h.find?_eq, Visit.binding?, hliteral, hpart]

/-- A node is visited only where it may be used. -/
theorem canUse {id : NodeId} (hid : id ∈ visits.map Visit.id) :
    (dispatcher style).tree.canUse id context = .ok true := by
  obtain ⟨v, hv, rfl⟩ := List.mem_map.1 hid
  exact (h.visits_of_mem hv).canUse_eq

end Visited

/-! ### What the verbs are given -/

section Select

/-- `set` is given a key and a number within its bounds. -/
theorem exists_of_select_set (h : (dispatcher style).select context line = .ok (some (.set, b))) :
    ∃ k n, Says line "set" k ∧ b.find? key = some (.text k) ∧
      b.find? value = some (.number (.integer .int n)) ∧ 0 ≤ n ∧ n ≤ maxValue := by
  obtain ⟨visits, hv⟩ := exists_visited_of_select h
  have hway := List.mem_singleton.1 hv.way
  obtain ⟨u, _, rfl, hu, hrest⟩ := List.map_eq_cons_iff.1 hway
  obtain ⟨v, _, rfl, hid, hrest⟩ := List.map_eq_cons_iff.1 hrest
  obtain ⟨w, _, rfl, hw, hnil⟩ := List.map_eq_cons_iff.1 hrest
  obtain rfl := List.map_eq_nil_iff.1 hnil
  have hname : kindAt u.id = some (.literal "set") := by rw [hu]; rfl
  have hkey : kindAt v.id = some (.argument key) := by rw [hid]; rfl
  have hvalue : kindAt w.id = some (.argument value) := by rw [hw]; rfl
  have hliteral := (hv.visits_of_mem List.mem_cons_self).part_of_literal
    ((kind?_of_outline style u.id).trans hname)
  obtain ⟨text, hpart, hread⟩ := hv.exists_value (by simp) hkey
  obtain ⟨number, hpart', hread'⟩ := hv.exists_value (by simp) hvalue
  obtain ⟨k, rfl, hsays⟩ := says_of_read (hv.toList_eq rfl hname) hread
  obtain ⟨n, rfl, hleast, hgreatest⟩ := exists_of_read_value hread'
  have hne : ¬ value.key = key.key := by decide
  have hne' : ¬ key.key = value.key := by decide
  refine ⟨k, n, hsays, ?_, ?_, hleast, hgreatest⟩
  · simp [hv.find?_eq, Visit.binding?, hliteral, hpart, hpart', hne]
  · simp [hv.find?_eq, Visit.binding?, hliteral, hpart, hpart', hne']

/-- `get` is given a key. -/
theorem exists_of_select_get (h : (dispatcher style).select context line = .ok (some (.get, b))) :
    ∃ k, b.find? key = some (.text k) := by
  obtain ⟨visits, hv⟩ := exists_visited_of_select h
  obtain ⟨_, hfind, c, d, hline, hread⟩ := hv.exists_argument (List.mem_singleton.1 hv.way) rfl rfl
  obtain ⟨k, rfl, -⟩ := says_of_read hline hread
  exact ⟨k, hfind⟩

/-- `delete` is given a key, behind one of its two names. -/
theorem exists_of_select_delete
    (h : (dispatcher style).select context line = .ok (some (.delete, b))) :
    ∃ k, (Says line "del" k ∨ Says line "rm" k) ∧ b.find? key = some (.text k) := by
  obtain ⟨visits, hv⟩ := exists_visited_of_select h
  rcases List.mem_cons.1 hv.way with hway | hway
  · obtain ⟨_, hfind, c, d, hline, hread⟩ := hv.exists_argument hway rfl rfl
    obtain ⟨k, rfl, hsays⟩ := says_of_read hline hread
    exact ⟨k, .inl hsays, hfind⟩
  · obtain ⟨_, hfind, c, d, hline, hread⟩ :=
      hv.exists_argument (List.mem_singleton.1 hway) rfl rfl
    obtain ⟨k, rfl, hsays⟩ := says_of_read hline hread
    exact ⟨k, .inr hsays, hfind⟩

/-- `echo` is given a text. -/
theorem exists_of_select_echo (h : (dispatcher style).select context line = .ok (some (.echo, b))) :
    ∃ t, b.find? text = some (.text t) := by
  obtain ⟨visits, hv⟩ := exists_visited_of_select h
  obtain ⟨_, hfind, c, d, -, hread⟩ := hv.exists_argument (List.mem_singleton.1 hv.way) rfl rfl
  obtain ⟨t, rfl⟩ := exists_of_read_text hread
  exact ⟨t, hfind⟩

/-- `toggle` is given a truth value. -/
theorem exists_of_select_toggle
    (h : (dispatcher style).select context line = .ok (some (.toggle, b))) :
    ∃ on, b.find? enabledArgument = some (.boolean on) := by
  obtain ⟨visits, hv⟩ := exists_visited_of_select h
  obtain ⟨v, hfind, c, d, -, hread⟩ := hv.exists_argument (List.mem_singleton.1 hv.way) rfl rfl
  have hread : Reading.as Value.boolean (readBoolean c) = .ok (v, d) := hread
  obtain ⟨on, -, rfl⟩ := Reading.exists_of_as_eq_ok hread
  exact ⟨on, hfind⟩

/-- `say` is given a text. -/
theorem exists_of_select_say (h : (dispatcher style).select context line = .ok (some (.say, b))) :
    ∃ t, b.find? message = some (.text t) := by
  obtain ⟨visits, hv⟩ := exists_visited_of_select h
  obtain ⟨_, hfind, c, d, -, hread⟩ := hv.exists_argument (List.mem_singleton.1 hv.way) rfl rfl
  obtain ⟨t, rfl⟩ := exists_of_read_text hread
  exact ⟨t, hfind⟩

theorem canUse_admin : (dispatcher style).tree.canUse 17 context = .ok (isAdmin context) := by
  have ho := map_outline style 17
  obtain ⟨node, hn, ho⟩ := Option.map_eq_some_iff.1 (ho.trans (by rfl))
  have hu : node.requirement = some isAdmin := congrArg Node.Outline.requirement ho
  refine Tree.canUse_eq_ok.2 ⟨node, hn, ?_⟩
  rw [Node.canUse, hu, Option.all_some]

/-- **`status` and `reset` are for administrators.** The node of `reset` asks for nothing, but every
way to it passes the one that does. -/
theorem isAdmin_of_select (hverb : verb = .status ∨ verb = .reset)
    (h : (dispatcher style).select context line = .ok (some (verb, b))) :
    isAdmin context = true := by
  obtain ⟨visits, hv⟩ := exists_visited_of_select h
  have hpasses : ∀ way ∈ waysTo verb, 17 ∈ way := by
    rcases hverb with rfl | rfl <;> decide
  have hu := hv.canUse (hpasses _ hv.way)
  rw [canUse_admin] at hu
  exact Except.ok.inj hu

end Select

end Visited

end Store

end CommandGrammar
