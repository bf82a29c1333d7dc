import CommandGrammar.Proofs.Dispatcher.Later
import CommandGrammar.Proofs.Dispatcher.Outcome
import CommandGrammar.Proofs.Dispatcher.Restriction
import CommandGrammar.Proofs.Dispatcher.Words
import CommandGrammar.Proofs.Grammar.Frame
import CommandGrammar.Proofs.Grammar.Removal
import CommandGrammar.Proofs.Match.Nesting

/-!
# Hidden commands

A literal whose requirement rejects the context is hidden there: no line runs it. It is there all the
same. Which children a line may match is decided by its next token before anybody asks whether they
may be used, and the literal that is this token is the only one. So a line that begins with the name
of a hidden literal matches nothing, while without the literal the arguments below the root would be
tried (`Dispatcher.exists_hidden_beside_argument`).

Main statement: this is the only difference (`Dispatcher.parse_eq_iff_of_remove_hidden`). Where no
redirect leads to the root, a hidden literal below the root and none at all give the same match and
the same execution of every line that does not begin with its name, and of every line at all in
contexts in which no argument below the root may be used.

The two searches differ at the root only. Behind the first step neither comes back there, and so both
find the same (`Tree.SameBut.agreesOn`). That the arguments match at all where they are tried is
because below a node other than the root a search always ends somewhere (`Tree.search_ne_none`).
-/

namespace CommandGrammar

variable {κ : Type}

namespace Tree

variable {tree tree' : Tree κ} {context : Context} {id child target : NodeId}
  {anchor : Option NodeId} {c : Cursor} {readable : c.rest ≠ []} {t : Trail}
  {here best : Option Match} {children : List NodeId} {node : Node κ} {name : String}

/-! ### Searches that do not come back to the root -/

theorem redirectsBelowRoot_of_forall_eq_none
    (h : ∀ node ∈ tree.nodes, node.redirect? = none) : tree.RedirectsBelowRoot := by
  intro node hn target hr
  rw [h node hn] at hr
  cases hr

theorem RedirectsBelowRoot.ne_root (h : tree.RedirectsBelowRoot) (hw : tree.WellFormed)
    (hn : tree.node? id = some node) (hr : node.redirect? = some target) : target ≠ root := by
  rintro rfl
  obtain ⟨goal, hg, hc⟩ := hw.exists_root
  have hchild := h node (Array.mem_of_getElem? hn) root hr goal hg
  rw [hc] at hchild
  cases hchild

/-- Only a search below the root can come back with nothing. -/
theorem search_ne_none (hw : tree.WellFormed) (hroot : tree.RedirectsBelowRoot) (q : Search)
    (hq : q.node ≠ root) : tree.search context q ≠ .ok none := by
  induction q using search_induction tree context with
  | search q ih =>
    intro hnone
    have hyields := yields_search tree context q
    rw [hnone] at hyields
    cases hyields with
    | unmatched hn hc =>
      rw [hw.isChild_of_ne_root hn hq] at hc
      cases hc
    | nested hstarts hfound =>
      refine ih _ ⟨_, hstarts⟩ ?_ hfound
      cases hstarts with
      | below ht _ _ _ =>
        obtain ⟨owner, ho, hm⟩ := ht.relevant
        exact hw.child_ne_root (hw.isChild_of_relevant ho hm)
      | redirect _ hs hr => exact hroot.ne_root hw (exists_read_of_step hs).1 hr

/-- Trying children gives nothing only if there was nothing before and none of them matches. -/
theorem matchAny_eq_none_iff (hw : tree.WellFormed) (hroot : tree.RedirectsBelowRoot)
    (hchildren : ∀ child ∈ children, child ≠ root) :
    tree.matchAny context anchor c readable t here best children = .ok none ↔
      here = none ∧ best = none ∧ ∀ child ∈ children, tree.step context child c t = .ok none := by
  induction children generalizing best with
  | nil =>
    rw [matchAny_nil]
    simp [Option.or_eq_none_iff, and_comm]
  | cons child children ih =>
    obtain ⟨hchild, hchildren⟩ := List.forall_mem_cons.1 hchildren
    rw [List.forall_mem_cons]
    cases hs : tree.step context child c t with
    | error failure =>
      rw [matchAny_cons_of_error hs]
      simp
    | ok result =>
      cases result with
      | none =>
        rw [matchAny_cons_of_none hs, ih hchildren]
        simp
      | some s =>
        have hn := (exists_read_of_step hs).1
        refine iff_of_false ?_ (by simp)
        cases hr : s.node.redirect? with
        | some target =>
          rw [matchAny_cons_of_redirect hs hr]
          exact search_ne_none hw hroot (.atTarget target s) (hroot.ne_root hw hn hr)
        | none =>
          rw [matchAny_cons_of_resume hs hr]
          have hresume : tree.resume context anchor child s ≠ .ok none := by
            unfold resume
            cases s.cursor.readable with
            | true => exact search_ne_none hw hroot ⟨child, _, s.cursor, s.trail⟩ hchild
            | false => simp
          rcases hf : tree.resume context anchor child s with failure | _ | m
          · simp
          · exact absurd hf hresume
          · simp only [ih hchildren]
            rintro ⟨-, hbest, -⟩
            unfold Match.better at hbest
            repeat' split at hbest
            all_goals simp_all

namespace SameBut

/-- Neither children nor redirects lead to the root. -/
theorem agreesOn (h : tree.SameBut tree' root) (hw : tree.WellFormed)
    (hroot : tree.RedirectsBelowRoot) : tree.AgreesOn tree' (· ≠ root) where
  node _ hid := h.node_eq hid
  child _ _ _ hc := hw.child_ne_root hc
  redirect _ _ _ _ hn hr := hroot.ne_root hw hn hr

/-- The root itself may lose children, as long as they are not those that the text may match. -/
theorem matchAt_eq {node' : Node κ} (h : tree.SameBut tree' root) (hw : tree.WellFormed)
    (hroot : tree.RedirectsBelowRoot) (hn : tree.node? root = some node)
    (hn' : tree'.node? root = some node') (hc : node'.isChild = node.isChild)
    (hchildren : c.rest ≠ [] → node'.relevantChildren c = node.relevantChildren c) :
    tree'.matchAt context c = tree.matchAt context c := by
  rw [matchAt, matchAt, matchFrom, matchFrom, node_eq_ok.2 hn, node_eq_ok.2 hn']
  simp only [hc]
  split
  · rename_i readable
    rw [hchildren readable]
    exact (h.agreesOn hw hroot).matchAny_eq hw fun child hm =>
      hw.child_ne_root (hw.isChild_of_relevant hn hm)
  · rfl

end SameBut

/-! ### A literal less below the root -/

theorem TopLiteral.child?_eq (hw : tree.WellFormed) (h : tree.TopLiteral name id) :
    tree.child? root name = .ok (some id) := by
  obtain ⟨node, hn, hl⟩ := (topLiteral_iff hw).1 h
  exact child?_eq_ok_some_iff.2 ⟨node, hn, (((hw.indexed root node hn).literals name id).1 hl).1⟩

/-- A literal that is taken away from the root is missed by the text of which it is the next token,
and by no other. -/
theorem TopLiteral.relevantChildren_erase (hw : tree.WellFormed) (h : tree.TopLiteral name id)
    (hn : tree.node? root = some node) (c : Cursor) :
    ({ node with children := node.children.erase name id } : Node κ).relevantChildren c =
      if c.token = name.toList then node.children.arguments ++ node.children.flags
      else node.relevantChildren c := by
  have hi := hw.indexed root node hn
  have hkeep : ∀ p : Kind → Bool, p (.literal name) = false →
      (node.children.order.filter (tree.hasKind p)).filter (fun other => decide (other ≠ id)) =
        node.children.order.filter (tree.hasKind p) := by
    intro p hp
    refine List.filter_eq_self.2 fun other hm => ?_
    rw [decide_eq_true_iff]
    rintro rfl
    have hkind := (List.mem_filter.1 hm).2
    rw [hasKind, h.2, Option.any_some, hp] at hkind
    cases hkind
  have htoken : name = String.ofList c.token ↔ c.token = name.toList := by
    rw [← String.toList_inj, String.toList_ofList]
    exact eq_comm
  simp only [Node.relevantChildren, Children.erase, Table.find?_erase, hi.arguments, hi.flags,
    hkeep Kind.isArgument rfl, hkeep Kind.isFlag rfl, htoken]
  split
  · rename_i literal hl
    split at hl
    · cases hl
    · rename_i hne
      rw [if_neg hne, hl]
  · rename_i hl
    split at hl
    · rename_i heq
      rw [if_pos heq]
    · rename_i hne
      rw [if_neg hne, hl]

/-- Some argument directly below the root may be used. -/
def OffersArgument (tree : Tree κ) (context : Context) : Prop :=
  ∃ child, tree.IsChild root child ∧ tree.hasKind Kind.isArgument child = true ∧
    tree.canUse child context = .ok true

/-- An argument that may be used matches or is refused. -/
theorem step_eq_none_iff_of_argument (hk : tree.hasKind Kind.isArgument child = true) :
    tree.step context child c t = .ok none ↔ tree.canUse child context = .ok false := by
  obtain ⟨kind, hkind, hargument⟩ := (Option.any_eq_true _ _).1 hk
  obtain ⟨symbol, hsymbol, rfl⟩ := Option.map_eq_some_iff.1 hkind
  obtain ⟨node, hn, hs⟩ := Option.bind_eq_some_iff.1 hsymbol
  rcases symbol with ⟨name | a, ending⟩ | flag
  · cases hargument
  · simp only [step, canUse, node_eq_ok.2 hn, hs, Symbol.read]
    cases hu : node.canUse context with
    | false => simp [Except.map, hu]
    | true =>
      simp only [↓reduceIte, Except.map, hu, Except.ok.injEq, Bool.true_eq_false, iff_false]
      rcases a.type.read context c with e | ⟨value, after⟩
      · simp
      · rcases hp : after.nextPart? with _ | next <;> simp [hp]
  · cases hargument

/-- Besides the literals there are only arguments directly below the root. -/
theorem PiecesBelowRoot.mem_arguments_append_flags_iff (h : tree.PiecesBelowRoot)
    (hw : tree.WellFormed) (hn : tree.node? root = some node) :
    child ∈ node.children.arguments ++ node.children.flags ↔
      tree.IsChild root child ∧ tree.hasKind Kind.isArgument child = true := by
  have hi := hw.indexed root node hn
  rw [List.mem_append, hi.arguments, hi.flags, List.mem_filter, List.mem_filter]
  constructor
  · rintro (⟨hm, hk⟩ | ⟨hm, hk⟩)
    · exact ⟨⟨node, hn, hm⟩, hk⟩
    · have htarget := h child ⟨node, hn, hm⟩
      rw [isTarget_eq_hasKind] at htarget
      obtain ⟨kind, hkind, hflag⟩ := (Option.any_eq_true _ _).1 hk
      rw [hasKind, hkind, Option.any_some, hflag] at htarget
      cases htarget
  · rintro ⟨⟨owner, ho, hm⟩, hk⟩
    obtain rfl := Option.some.inj (hn.symm.trans ho)
    exact .inl ⟨hm, hk⟩

/-- None of them matches a text exactly if no argument may be used. -/
theorem forall_step_eq_none_iff (hw : tree.WellFormed) (hpieces : tree.PiecesBelowRoot)
    (hn : tree.node? root = some node) :
    (∀ child ∈ node.children.arguments ++ node.children.flags,
      tree.step context child c t = .ok none) ↔ ¬ tree.OffersArgument context := by
  simp only [hpieces.mem_arguments_append_flags_iff hw hn]
  constructor
  · rintro hnone ⟨child, hc, hk, hu⟩
    have hrefused := (step_eq_none_iff_of_argument hk).1 (hnone child ⟨hc, hk⟩)
    rw [hu] at hrefused
    cases hrefused
  · rintro hoffers child ⟨hc, hk⟩
    obtain ⟨childNode, hchild⟩ := exists_node?_of_lt_size (hw.bounds_of_isChild hc).2
    refine (step_eq_none_iff_of_argument hk).2 (canUse_eq_ok.2 ⟨childNode, hchild, ?_⟩)
    by_contra hu
    exact hoffers ⟨child, hc, hk, canUse_eq_ok.2 ⟨childNode, hchild, by simpa using hu⟩⟩

end Tree

/-! ### A command that nobody sees and one that is not there -/

namespace Dispatcher

variable {d d' : Dispatcher κ} {context : Context} {line name : String} {id : NodeId} {m : Match}

/-- Whether a line has a first token and it is this name. -/
def BeginsWith (line name : String) : Prop :=
  (Cursor.atStart line).rest ≠ [] ∧ (Cursor.atStart line).token = name.toList

instance : Decidable (BeginsWith line name) :=
  inferInstanceAs (Decidable (_ ∧ _))

theorem remove_tree (hr : d.remove name = .ok (d', some id)) :
    d.tree.remove Tree.root name = .ok (d'.tree, some id) := by
  obtain ⟨⟨tree, id?⟩, hremove, hd⟩ := exists_of_bind_eq_ok hr
  cases hd
  exact hremove

/-- A match selects the same command when another one is gone. -/
theorem selectMatch_eq_of_remove (hr : d.remove name = .ok (d', some id)) (m : Match) :
    d'.selectMatch m = d.selectMatch m := by
  obtain ⟨-, -, -, -, hsame⟩ := Tree.exists_of_remove (remove_tree hr)
  cases hn : d.tree.node? m.node with
  | none =>
    have hn' : d'.tree.node? m.node = none := by
      rw [Tree.node?, Array.getElem?_eq_none_iff] at hn ⊢
      exact Nat.le_trans (Nat.le_of_eq hsame.size) hn
    rw [selectMatch, selectMatch, Tree.node, Tree.node, hn, hn', hsame.size]
  | some node =>
    obtain ⟨children, hn', -⟩ := Tree.exists_node?_of_remove (remove_tree hr) hn
    rw [selectMatch, selectMatch, Tree.node_eq_ok.2 hn, Tree.node_eq_ok.2 hn']
    rfl

/-- What a line matches alike it also runs alike. -/
theorem execute_eq_of_remove (hr : d.remove name = .ok (d', some id))
    (hparse : d'.parse context line = d.parse context line) {σ : Type}
    (run : κ → Bindings → Action σ Unit) :
    d'.execute run context line = d.execute run context line := by
  simp only [execute, select, hparse, selectMatch_eq_of_remove hr]

section Removed

variable (h : d.Reachable) (hroot : d.tree.RedirectsBelowRoot)
  (hname : d.tree.TopLiteral name id) (hr : d.remove name = .ok (d', some id))
include h hroot hname hr

/-- A line that begins with anything else does not miss the literal. -/
theorem parse_eq_of_not_beginsWith (hline : ¬ BeginsWith line name) :
    d'.parse context line = d.parse context line := by
  have hw := h.tree.wellFormed
  obtain ⟨owner, ho, -, ho', hsame⟩ := Tree.exists_of_remove (remove_tree hr)
  refine hsame.matchAt_eq hw hroot ho ho' rfl fun hrest => ?_
  rw [hname.relevantChildren_erase hw ho, if_neg fun htoken => hline ⟨hrest, htoken⟩]

/-- One that begins with its name is read by the arguments below the root, if there is one that may
be used. -/
theorem parse_eq_none_iff_of_beginsWith (hline : BeginsWith line name) :
    d'.parse context line = .ok none ↔ ¬ d.tree.OffersArgument context := by
  have hw := h.tree.wellFormed
  obtain ⟨owner, ho, -, ho', hsame⟩ := Tree.exists_of_remove (remove_tree hr)
  obtain ⟨_, hroot?, hchild⟩ := hw.exists_root
  obtain rfl := Option.some.inj (ho.symm.trans hroot?)
  have hbelow : ∀ child ∈ owner.children.arguments ++ owner.children.flags, child ≠ Tree.root :=
    fun child hm => hw.child_ne_root (h.piecesBelowRoot.mem_arguments_append_flags_iff hw ho |>.1 hm).1
  rw [parse, Tree.matchAt, Tree.matchFrom, Tree.node_eq_ok.2 ho']
  simp only [dif_pos hline.1, hname.relevantChildren_erase hw ho, if_pos hline.2]
  rw [(hsame.agreesOn hw hroot).matchAny_eq hw hbelow, Tree.matchAny_eq_none_iff hw hroot hbelow,
    Tree.forall_step_eq_none_iff hw h.piecesBelowRoot ho]
  simp [show owner.symbol? = none by simpa [Node.isChild] using hchild, Node.isChild]

end Removed

/-- A hidden literal is all that its name may match. -/
theorem parse_eq_none_of_hidden (h : d.Reachable) (hname : d.tree.TopLiteral name id)
    (hu : d.tree.canUse id context = .ok false) (hline : BeginsWith line name) :
    d.parse context line = .ok none := by
  have hw := h.tree.wellFormed
  obtain ⟨owner, ho, hchild⟩ := hw.exists_root
  obtain ⟨node, hn, hu⟩ := Tree.canUse_eq_ok.1 hu
  rw [parse, Tree.matchAt, Tree.matchFrom, Tree.node_eq_ok.2 ho]
  simp only [hchild, hline.1, hname.relevantChildren_eq hw ho hline.2, ne_eq, not_false_eq_true,
    ↓reduceDIte, Bool.false_eq_true, ↓reduceIte]
  exact (Tree.matchAny_cons_of_none (Tree.step_of_canUse_eq_false hn hu)).trans Tree.matchAny_nil

/-- **A hidden literal is as good as removed, but that its name matches nothing.** It is removed by
its name, and the removal changes what a line matches exactly if the line begins with the name and
some argument below the root may be used. A line that matches alike does the same when it is
executed. One that begins with the name is an unknown command as long as the literal is there. -/
theorem parse_eq_iff_of_remove_hidden (h : d.Reachable) (hroot : d.tree.RedirectsBelowRoot)
    (hname : d.tree.TopLiteral name id) (hu : d.tree.canUse id context = .ok false) :
    ∃ d', d.remove name = .ok (d', some id) ∧ ∀ line,
      (d'.parse context line = d.parse context line ↔
        ¬ (BeginsWith line name ∧ d.tree.OffersArgument context)) ∧
      (d'.parse context line = d.parse context line →
        ∀ (σ : Type) (run : κ → Bindings → Action σ Unit),
          d'.execute run context line = d.execute run context line) ∧
      (BeginsWith line name → d.parse context line = .ok none ∧
        ∀ (σ : Type) (run : κ → Bindings → Action σ Unit),
          d.execute run context line = throw (.parse ⟨.unknownCommand, .atStart line⟩)) := by
  obtain ⟨tree', hremove⟩ := Tree.exists_remove_of_child (Tree.TopLiteral.child?_eq h.tree.wellFormed hname)
  have hr : d.remove name = .ok ({ d with tree := tree' }, some id) := by
    rw [remove, hremove]
    rfl
  refine ⟨_, hr, fun line => ⟨?_, fun hparse σ run => execute_eq_of_remove hr hparse run,
    fun hline => ?_⟩⟩
  · by_cases hline : BeginsWith line name
    · rw [parse_eq_none_of_hidden h hname hu hline,
        parse_eq_none_iff_of_beginsWith h hroot hname hr hline]
      simp [hline]
    · simp [hline, parse_eq_of_not_beginsWith h hroot hname hr hline]
  · have hnone := parse_eq_none_of_hidden h hname hu hline
    refine ⟨hnone, fun σ run => ?_⟩
    rw [execute, select, hnone]
    rfl

/-- A literal for administrators, and beside it a word. -/
def fooBesideWord : Except Violation (Dispatcher Nat) := do
  let foo ← (literal "foo").executes 0
  let (d, _) ← ({} : Dispatcher Nat).register (foo.requires knowsAdmin)
  let word ← (argument ⟨⟨"word", 0⟩, .text .word⟩).executes 1
  let (d, _) ← d.register word
  return d

theorem reachable_of_fooBesideWord {d : Dispatcher Nat} (h : fooBesideWord = .ok d) :
    d.Reachable := by
  obtain ⟨foo, hfoo, h⟩ := exists_of_bind_eq_ok h
  obtain ⟨⟨d₁, _⟩, h₁, h⟩ := exists_of_bind_eq_ok h
  obtain ⟨word, hword, h⟩ := exists_of_bind_eq_ok h
  obtain ⟨⟨d₂, _⟩, h₂, h⟩ := exists_of_bind_eq_ok h
  cases h
  have hfoo := ((CommandDraft.Drafted.literal "foo").executes hfoo).requires knowsAdmin
  have hword := (CommandDraft.Drafted.argument ⟨⟨"word", 0⟩, .text .word⟩).executes hword
  exact ((Reachable.start {}).register hfoo h₁).register hword h₂

/-- In it the literal is hidden from everybody else. -/
theorem exists_fooBesideWord :
    ∃ d : Dispatcher Nat, fooBesideWord = .ok d ∧ d.Reachable ∧
      (∀ node ∈ d.tree.nodes, node.redirect? = none) ∧ d.tree.TopLiteral "foo" 1 ∧
      d.tree.canUse 1 .empty = .ok false := by
  have hnodes : fooBesideWord.map (fun d =>
      (decide (∀ node ∈ d.tree.nodes, node.redirect? = none),
        d.tree.canUse 1 .empty, (d.tree.node? Tree.root).map (·.children.literals.find? "foo"))) =
        .ok (true, .ok false, some (some 1)) := by
    cbv
  obtain ⟨d, h, hd⟩ := exists_of_map_eq_ok hnodes
  simp only [Prod.mk.injEq] at hd
  obtain ⟨hredirect, hu, hfoo⟩ := hd
  obtain ⟨owner, ho, hfoo⟩ := Option.map_eq_some_iff.1 hfoo
  have hreach := reachable_of_fooBesideWord h
  exact ⟨d, h, hreach, of_decide_eq_true hredirect,
    (Tree.topLiteral_iff hreach.tree.wellFormed).2 ⟨owner, ho, hfoo⟩, hu⟩

/-- With or without the literal, the word reads any other line, and then its command is run. -/
theorem parse_eq_iff_of_remove_hidden_fooBesideWord :
    ∃ d d' : Dispatcher Nat, fooBesideWord = .ok d ∧ d.Reachable ∧ d.tree.RedirectsBelowRoot ∧
      d.tree.TopLiteral "foo" 1 ∧ d.tree.canUse 1 .empty = .ok false ∧
      d.remove "foo" = .ok (d', some 1) ∧ ¬ BeginsWith "bar" "foo" ∧
      d'.parse .empty "bar" = d.parse .empty "bar" ∧
      (d.command? .empty "bar").map Prod.fst = some 1 ∧
      BeginsWith "foo" "foo" ∧ d.parse .empty "foo" = .ok none := by
  obtain ⟨d, h, hreach, hredirect, hfoo, hu⟩ := exists_fooBesideWord
  have hrun : fooBesideWord.map (fun d => (d.command? .empty "bar").map Prod.fst) =
      .ok (some 1) := by
    cbv
  rw [h] at hrun
  have hroot := Tree.redirectsBelowRoot_of_forall_eq_none hredirect
  obtain ⟨d', hr, hlines⟩ := parse_eq_iff_of_remove_hidden hreach hroot hfoo hu
  have hbar : ¬ BeginsWith "bar" "foo" := by decide
  have hbegins : BeginsWith "foo" "foo" := by decide
  exact ⟨d, d', h, hreach, hroot, hfoo, hu, hr, hbar,
    (hlines "bar").1.2 (not_and_of_not_left _ hbar), Except.ok.inj hrun, hbegins,
    ((hlines "foo").2.2 hbegins).1⟩

/-- **A hidden literal is still in the way of what its name could be otherwise**: beside a word that
anybody may use its name is an unknown command, and without it the name is read as that word. -/
theorem exists_hidden_beside_argument :
    ∃ d d' : Dispatcher Nat, fooBesideWord = .ok d ∧ d.Reachable ∧
      (∀ node ∈ d.tree.nodes, node.redirect? = none) ∧ d.tree.TopLiteral "foo" 1 ∧
      d.tree.canUse 1 .empty = .ok false ∧ d.remove "foo" = .ok (d', some 1) ∧
      d.parse .empty "foo" = .ok none ∧ d'.parse .empty "foo" ≠ d.parse .empty "foo" ∧
      d.select .empty "foo" = .error (.parse ⟨.unknownCommand, .atStart "foo"⟩) ∧
      (d'.command? .empty "foo").map Prod.fst = some 1 := by
  obtain ⟨d, h, hreach, hredirect, hfoo, hu⟩ := exists_fooBesideWord
  have hrun : fooBesideWord.map (fun d => (d.remove "foo").map fun removed =>
      (removed.2, (removed.1.command? .empty "foo").map Prod.fst)) = .ok (.ok (some 1, some 1)) := by
    cbv
  rw [h] at hrun
  obtain ⟨⟨d', id?⟩, hr, hd⟩ := exists_of_map_eq_ok (Except.ok.inj hrun)
  obtain ⟨rfl, hcommand⟩ := Prod.mk.inj hd
  have hnone := parse_eq_none_of_hidden hreach hfoo hu (show BeginsWith "foo" "foo" by decide)
  refine ⟨d, d', h, hreach, hredirect, hfoo, hu, hr, hnone, fun hsame => ?_, ?_, hcommand⟩
  · -- without a match no command would be run
    rw [hnone] at hsame
    rw [command?_eq, hsame] at hcommand
    cases hcommand
  · rw [select, hnone]

end Dispatcher

end CommandGrammar
