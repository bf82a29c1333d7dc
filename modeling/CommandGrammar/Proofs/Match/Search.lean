import CommandGrammar.Grammar.Edit
import CommandGrammar.Match
import Mathlib

/-!
# Matching is exhaustive search

A match is found by taking, at every node, the best of what the children give, and forgetting the
rest. The same search can be told without any choice: collect all places at which reading can end,
in the order in which they are met (`Tree.leaves`), and choose once, at the very end, the first one
that uses up the line, or else the first one (`Match.choose`).

Main statement: both give the same result, errors included (`Tree.matchFrom_eq_choose_leaves`), in
every grammar in which no redirect leads to the root. Such a redirect would be an exception: where
nothing matches below the root there is no match at all, while below any other node the match ends
at the node itself.

The proof is an induction on the text left to read, and for each text one on the children to try.
What carries it is that the best match so far is always the choice among the leaves collected so far
(`Match.better_choose`), and that the search below any node but the root finds at least one leaf
(`Tree.leaves_ne_nil`).
-/

namespace CommandGrammar

variable {κ : Type}

/-! ### Choosing -/

namespace Match

/-- The first match that uses up the line, or else the first one. -/
def choose (l : List Match) : Option Match := (l.find? isComplete).or l.head?

@[simp] theorem choose_nil : choose [] = none := rfl

theorem choose_singleton (m : Match) : choose [m] = some m := by
  unfold choose
  cases h : m.isComplete <;> simp [h]

theorem choose_isSome {l : List Match} (h : l ≠ []) : (choose l).isSome = true := by
  cases l with
  | nil => exact absurd rfl h
  | cons m l => simp [choose]

/-- The better one of the choices from two lists is the choice from both together. -/
theorem better_choose (l l' : List Match) : better (choose l) (choose l') = choose (l ++ l') := by
  unfold choose
  rw [List.find?_append]
  cases h : l.find? isComplete with
  | some m =>
    have hm : m.isComplete = true := List.find?_some h
    cases h' : (l'.find? isComplete).or l'.head? <;> simp [better, hm]
  | none =>
    cases l with
    | nil => simp [better]
    | cons m l =>
      have hm : m.isComplete = false := by
        simpa using List.find?_eq_none.1 h m List.mem_cons_self
      cases h' : l'.find? isComplete with
      | some m' =>
        have hm' : m'.isComplete = true := List.find?_some h'
        simp [better, hm, hm']
      | none =>
        cases l' with
        | nil => simp [better]
        | cons m' l' =>
          have hm' : m'.isComplete = false := by
            simpa using List.find?_eq_none.1 h' m' List.mem_cons_self
          simp [better, hm, hm']

end Match

namespace Tree

/-! ### Collecting all leaves -/

mutual

/-- All places at which reading can end below a node, from a place on, in the order in which they
are met. If there are none, reading ends at the node itself, unless it is the root. -/
def leaves (tree : Tree κ) (context : Context) (id : NodeId) (anchor : Option NodeId) (c : Cursor)
    (t : Trail) : Except Failure (List Match) :=
  match tree.node id with
  | .error violation => .error (.violation violation)
  | .ok node =>
    let here : List Match := if node.isChild then [⟨id, c, t⟩] else []
    if h : c.rest ≠ [] then
      match tree.leavesAmong context anchor c h t [] (node.relevantChildren c) with
      | .error failure => .error failure
      | .ok found => .ok (if found.isEmpty then here else found)
    else .ok here
termination_by (c.rest.length, 1, 0)

/-- Those found before, and those by way of some children behind them. A child that matches and has
a redirect drops what was found before, and keeps the children behind it from being looked at. -/
def leavesAmong (tree : Tree κ) (context : Context) (anchor : Option NodeId) (c : Cursor)
    (readable : c.rest ≠ []) (t : Trail) (before : List Match) :
    List NodeId → Except Failure (List Match)
  | [] => .ok before
  | child :: children =>
    match _h : tree.step context child c t with
    | .error failure => .error failure
    | .ok none => tree.leavesAmong context anchor c readable t before children
    | .ok (some s) =>
      match s.node.redirect? with
      | some target => tree.leaves context target (some target) s.cursor s.trail
      | none =>
        let anchorBelow := if s.node.isFlag then anchor else some child
        if s.cursor.readable then
          match tree.leaves context child anchorBelow s.cursor s.trail with
          | .error failure => .error failure
          | .ok found => tree.leavesAmong context anchor c readable t (before ++ found) children
        else
          let leaf : Match := ⟨anchorBelow.getD child, s.cursor, s.trail⟩
          tree.leavesAmong context anchor c readable t (before ++ [leaf]) children
termination_by children => (c.rest.length, 0, children.length)
decreasing_by
  all_goals simp_wf
  all_goals first
    | exact Prod.Lex.right _ (Prod.Lex.right _ (by omega))
    | exact Prod.Lex.left _ _ (length_rest_lt_of_step _h readable)

end

/-- The leaves by way of a child that has matched and has no redirect. -/
def leavesOf (tree : Tree κ) (context : Context) (anchor : Option NodeId) (child : NodeId)
    (s : Step κ) : Except Failure (List Match) :=
  let anchorBelow := if s.node.isFlag then anchor else some child
  if s.cursor.readable then tree.leaves context child anchorBelow s.cursor s.trail
  else .ok [⟨anchorBelow.getD child, s.cursor, s.trail⟩]

/-- No redirect leads to the root. -/
def RedirectsBelowRoot (tree : Tree κ) : Prop :=
  ∀ node ∈ tree.nodes, ∀ target ∈ node.redirect?, ∀ goal ∈ tree.node? target, goal.isChild = true

instance (tree : Tree κ) : Decidable tree.RedirectsBelowRoot :=
  inferInstanceAs (Decidable (∀ node ∈ tree.nodes, ∀ target ∈ node.redirect?,
    ∀ goal ∈ tree.node? target, goal.isChild = true))

variable {tree : Tree κ} {context : Context} {id child : NodeId} {anchor : Option NodeId}
  {c : Cursor} {readable : c.rest ≠ []} {t : Trail} {before : List Match} {children : List NodeId}

theorem leavesAmong_cons_of_error {failure : Failure}
    (h : tree.step context child c t = .error failure) :
    tree.leavesAmong context anchor c readable t before (child :: children) = .error failure := by
  rw [leavesAmong]
  split <;> simp_all

theorem leavesAmong_cons_of_none (h : tree.step context child c t = .ok none) :
    tree.leavesAmong context anchor c readable t before (child :: children) =
      tree.leavesAmong context anchor c readable t before children := by
  rw [leavesAmong]
  split <;> simp_all

theorem leavesAmong_cons_of_redirect {s : Step κ} {target : NodeId}
    (h : tree.step context child c t = .ok (some s)) (hr : s.node.redirect? = some target) :
    tree.leavesAmong context anchor c readable t before (child :: children) =
      tree.leaves context target (some target) s.cursor s.trail := by
  rw [leavesAmong]
  split <;> simp_all

theorem leavesAmong_cons_of_leavesOf {s : Step κ} (h : tree.step context child c t = .ok (some s))
    (hr : s.node.redirect? = none) :
    tree.leavesAmong context anchor c readable t before (child :: children) =
      match tree.leavesOf context anchor child s with
      | .error failure => .error failure
      | .ok found =>
        tree.leavesAmong context anchor c readable t (before ++ found) children := by
  rw [leavesAmong]
  split <;> simp_all
  unfold leavesOf
  cases s.cursor.readable <;> rfl

/-- The search below any node but the root finds at least one leaf. -/
theorem leaves_ne_nil {node : Node κ} {found : List Match} (hn : tree.node? id = some node)
    (hc : node.isChild = true) (h : tree.leaves context id anchor c t = .ok found) :
    found ≠ [] := by
  rw [leaves, node_eq_ok.2 hn] at h
  simp only [hc, ↓reduceIte] at h
  split at h
  · split at h
    · cases h
    · rename_i inner _
      obtain rfl := Except.ok.inj h
      cases inner <;> simp
  · obtain rfl := Except.ok.inj h
    simp

theorem exists_node?_of_leaves {found : List Match}
    (h : tree.leaves context id anchor c t = .ok found) : ∃ node, tree.node? id = some node := by
  rw [leaves] at h
  split at h
  · cases h
  · rename_i node hn
    exact ⟨node, node_eq_ok.1 hn⟩

/-! ### Both give the same -/

/-- The claim about all texts shorter than the one at hand. -/
def AgreesBelow (tree : Tree κ) (context : Context) (c : Cursor) : Prop :=
  ∀ id anchor (d : Cursor) t, d.rest.length < c.rest.length →
    tree.matchFrom context id anchor d t = (tree.leaves context id anchor d t).map Match.choose

theorem resume_eq_choose_leavesOf (ih : tree.AgreesBelow context c) {s : Step κ}
    (hlt : s.cursor.rest.length < c.rest.length) :
    tree.resume context anchor child s =
      (tree.leavesOf context anchor child s).map Match.choose := by
  unfold resume leavesOf
  cases s.cursor.readable with
  | true => exact ih _ _ _ _ hlt
  | false =>
    simp only [Bool.false_eq_true, ↓reduceIte, Except.map, Match.choose_singleton]

/-- Trying children keeps the best match so far the choice among the leaves so far. What a redirect
gives is final, since its target has a leaf. -/
theorem matchAny_eq_choose_leavesAmong (hroot : tree.RedirectsBelowRoot)
    (ih : tree.AgreesBelow context c) (here : Option Match) :
    tree.matchAny context anchor c readable t here (Match.choose before) children =
      (tree.leavesAmong context anchor c readable t before children).map fun found =>
        (Match.choose found).or here := by
  induction children generalizing before with
  | nil =>
    rw [matchAny, leavesAmong]
    rfl
  | cons child children ihc =>
    cases hs : tree.step context child c t with
    | error failure =>
      rw [matchAny_cons_of_error hs, leavesAmong_cons_of_error hs]
      rfl
    | ok result =>
      cases result with
      | none =>
        rw [matchAny_cons_of_none hs, leavesAmong_cons_of_none hs]
        exact ihc
      | some s =>
        have hlt := length_rest_lt_of_step hs readable
        cases hr : s.node.redirect? with
        | some target =>
          rw [matchAny_cons_of_redirect hs hr, leavesAmong_cons_of_redirect hs hr, ih _ _ _ _ hlt]
          cases hf : tree.leaves context target (some target) s.cursor s.trail with
          | error failure => rfl
          | ok found =>
            obtain ⟨goal, hg⟩ := exists_node?_of_leaves hf
            have hmem := Array.mem_of_getElem? (exists_read_of_step hs).1
            have hchild := hroot s.node hmem target hr goal hg
            have hsome := Match.choose_isSome (leaves_ne_nil hg hchild hf)
            simp only [Except.map, Option.or_of_isSome hsome]
        | none =>
          rw [matchAny_cons_of_resume hs hr, leavesAmong_cons_of_leavesOf hs hr,
            resume_eq_choose_leavesOf ih hlt]
          cases tree.leavesOf context anchor child s with
          | error failure => rfl
          | ok found =>
            simp only [Except.map, Match.better_choose]
            exact ihc

/-- The choice from what is found in the end: the leaves, or the node itself if there are none. -/
theorem choose_or_here {node : Node κ} (found : List Match) (m : Match) :
    (Match.choose found).or (if node.isChild then some m else none) =
      Match.choose (if found.isEmpty then (if node.isChild then [m] else []) else found) := by
  cases found with
  | nil => cases node.isChild <;> simp [Match.choose_singleton]
  | cons first found =>
    have hsome : (Match.choose (first :: found)).isSome = true :=
      Match.choose_isSome (List.cons_ne_nil first found)
    simp [Option.or_of_isSome hsome]

/-- **Backtracking is exhaustive search**: where no redirect leads to the root, a match is the
choice among all leaves, and it fails exactly as the search for the leaves does. -/
theorem matchFrom_eq_choose_leaves (hroot : tree.RedirectsBelowRoot) (context : Context)
    (id : NodeId) (anchor : Option NodeId) (c : Cursor) (t : Trail) :
    tree.matchFrom context id anchor c t =
      (tree.leaves context id anchor c t).map Match.choose := by
  induction hn : c.rest.length using Nat.strongRecOn generalizing id anchor c t with
  | ind n ih =>
    have ihc : tree.AgreesBelow context c := by
      intro id anchor d t hd
      exact ih d.rest.length (hn ▸ hd) id anchor d t rfl
    rw [matchFrom, leaves]
    cases tree.node id with
    | error violation => rfl
    | ok node =>
      simp only
      split
      · rename_i readable
        show tree.matchAny context anchor c readable t _ (Match.choose []) _ = _
        rw [matchAny_eq_choose_leavesAmong hroot ihc]
        cases tree.leavesAmong context anchor c readable t [] (node.relevantChildren c) with
        | error failure => rfl
        | ok found => simp only [Except.map, choose_or_here]
      · cases node.isChild <;> simp [Except.map, Match.choose_singleton]

/-- **A line matches as its first complete leaf**, or else as its first leaf, or not at all if there
is none, from whatever place on it is read. -/
theorem matchAt_eq_choose_leaves (hroot : tree.RedirectsBelowRoot) (context : Context)
    (c : Cursor) :
    tree.matchAt context c =
      (tree.leaves context root none c (.start context c)).map Match.choose :=
  matchFrom_eq_choose_leaves hroot context root none c (.start context c)

/-- Below `foo` either one word or two words, and `f` for `foo`. -/
def oneOrTwoWords : Except Violation (Tree Unit) := do
  let word (name : String) (serial : Nat) (below : List (Spec Unit)) : Spec Unit :=
    ⟨.piece (.argument ⟨⟨name, serial⟩, .text .word⟩) {}, none, below⟩
  let (tree, foo) ← Tree.empty.add root ⟨.piece (.literal "foo") {}, none,
    [word "a" 0 [], word "b" 1 [word "c" 2 []]]⟩
  let (tree, _) ← tree.add root ⟨.piece (.literal "f") { redirect := some foo }, none, []⟩
  return tree

/-- The first leaf leaves a word over, and the second one wins. -/
theorem matchAt_eq_choose_leaves_oneOrTwoWords :
    ∃ (tree : Tree Unit) (c : Cursor), oneOrTwoWords = .ok tree ∧ c = .atStart "f 1 2" ∧
      tree.RedirectsBelowRoot ∧
      (tree.leaves .empty root none c (.start .empty c)).map (List.map Match.node) = .ok [2, 4] ∧
      (tree.matchAt .empty c).map (Option.map Match.node) = .ok (some 4) ∧
      tree.matchAt .empty c =
        (tree.leaves .empty root none c (.start .empty c)).map Match.choose := by
  have hroot : oneOrTwoWords.map (fun tree => decide tree.RedirectsBelowRoot) = .ok true := by
    cbv
  have hrun : oneOrTwoWords.map (fun tree =>
      ((tree.leaves .empty root none (.atStart "f 1 2") (.start .empty (.atStart "f 1 2"))).map
        (List.map Match.node),
      (tree.matchAt .empty (.atStart "f 1 2")).map (Option.map Match.node))) =
        .ok (.ok [2, 4], .ok (some 4)) := by
    cbv
  obtain ⟨tree, h, hd⟩ := exists_of_map_eq_ok hroot
  rw [h] at hrun
  obtain ⟨hleaves, hmatch⟩ := Prod.mk.inj (Except.ok.inj hrun)
  have hbelow := of_decide_eq_true hd
  exact ⟨tree, _, h, rfl, hbelow, hleaves, hmatch, matchAt_eq_choose_leaves hbelow .empty _⟩

end Tree

end CommandGrammar
