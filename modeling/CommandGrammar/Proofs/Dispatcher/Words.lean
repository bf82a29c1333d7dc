import CommandGrammar.Proofs.Dispatcher.Alias
import CommandGrammar.Proofs.Grammar.Names

/-!
# Grammars of words

If all nodes of a grammar are literals whose names can be tokens, and none has a redirect, then a
grammar is a set of paths of words, and a line is words with one separator between two of them
(`wordsOf`).

Main statement: matching is following the words (`Dispatcher.parse_eq_of_onlyWords`). A line matches
as many of its first words as lead from the root by way of nodes that may be used. The match ends at
the last of them, and the next word is where reading stopped. So a line is used up exactly if its
words are such a path, with one separator behind them at most.

The proof is an induction on the words that are left (`Tree.matchFrom_words`). At every node there
are three cases: the line is used up, the next word leads to a child that may be used, or it does
not.
-/

namespace CommandGrammar

variable {κ : Type}

/-! ### The words of a line -/

/-- The words of a line: the parts between its separators, which may be empty. -/
def wordsOf (line : String) : List String := (line.toList.splitOn separator).map String.ofList

/-- Words with one separator between two of them. -/
def joinWords (words : List String) : List Char := [separator].intercalate (words.map String.toList)

theorem joinWords_nil : joinWords [] = [] := rfl

theorem joinWords_singleton (word : String) : joinWords [word] = word.toList := by
  simp [joinWords]

theorem joinWords_cons (word : String) {words : List String} (hne : words ≠ []) :
    joinWords (word :: words) = word.toList ++ separator :: joinWords words := by
  obtain ⟨next, words, rfl⟩ := List.exists_cons_of_ne_nil hne
  simp [joinWords]

/-- Nothing is written for no words and for one empty word. -/
theorem joinWords_eq_nil_iff {words : List String} :
    joinWords words = [] ↔ words = [] ∨ words = [""] := by
  cases words with
  | nil => simp [joinWords_nil]
  | cons word words =>
    by_cases hne : words = []
    · simp [hne, joinWords_singleton]
    · simp [joinWords_cons word hne, hne]

theorem joinWords_append_empty {words : List String} (hne : words ≠ []) :
    joinWords (words ++ [""]) = joinWords words ++ [separator] := by
  induction words with
  | nil => exact absurd rfl hne
  | cons word words ih =>
    cases words with
    | nil => simp [joinWords_singleton, joinWords_cons]
    | cons next words =>
      rw [List.cons_append, joinWords_cons word (by simp), ih (by simp),
        joinWords_cons word (by simp), List.append_assoc, List.cons_append]

theorem notMem_of_mem_splitOn {text : List Char} :
    ∀ part ∈ text.splitOn separator, separator ∉ part := by
  induction text with
  | nil => simp
  | cons first text ih =>
    rw [List.splitOn_cons_eq_if_modifyHead]
    split
    · simpa using ih
    · rename_i hfirst
      obtain ⟨part, parts, hparts⟩ :=
        List.exists_cons_of_ne_nil (List.splitOn_ne_nil separator text)
      rw [hparts] at ih ⊢
      rw [List.modifyHead_cons, List.forall_mem_cons]
      rw [List.forall_mem_cons] at ih
      refine ⟨?_, ih.2⟩
      rw [List.mem_cons, not_or]
      exact ⟨fun e => hfirst (by simp [e]), ih.1⟩

/-- The words of a line are its words. -/
theorem joinWords_wordsOf (line : String) : joinWords (wordsOf line) = line.toList := by
  rw [joinWords, wordsOf, List.map_map]
  simp only [Function.comp_def, String.toList_ofList, List.map_id']
  exact List.intercalate_splitOn separator

theorem separator_notMem_of_mem_wordsOf {line word : String} (h : word ∈ wordsOf line) :
    separator ∉ word.toList := by
  obtain ⟨part, hpart, rfl⟩ := List.mem_map.1 h
  rw [String.toList_ofList]
  exact notMem_of_mem_splitOn part hpart

/-- Words without separators are the words of the line that they make. -/
theorem wordsOf_of_toList_eq {line : String} {words : List String}
    (h : line.toList = joinWords words) (hwords : ∀ word ∈ words, separator ∉ word.toList)
    (hne : words ≠ []) : wordsOf line = words := by
  have hsplit : line.toList.splitOn separator = words.map String.toList := by
    rw [h]
    refine List.splitOn_intercalate separator ?_ (by simpa using hne)
    intro part hpart
    obtain ⟨word, hword, rfl⟩ := List.mem_map.1 hpart
    exact hwords word hword
  rw [wordsOf, hsplit, List.map_map]
  simp [Function.comp_def]

/-! ### The next word -/

namespace Cursor

variable {c : Cursor} {word : String} {words : List String}

/-- The next token is the next word. -/
theorem token_of_joinWords (hc : c.rest = joinWords (word :: words))
    (hword : separator ∉ word.toList) : c.token = word.toList := by
  by_cases hne : words = []
  · have happend := takeWhile_append_of_notMem hword []
    rw [List.append_nil] at happend
    rw [token, hc, hne, joinWords_singleton, happend, List.takeWhile_nil, List.append_nil]
  · rw [token, hc, joinWords_cons word hne, takeWhile_append_of_notMem hword]
    simp

/-- Behind it and a separator the other words follow. -/
theorem exists_nextPart?_of_joinWords (hc : c.rest = joinWords (word :: words))
    (hword : separator ∉ word.toList) :
    ∃ next, (c.skipBytes (byteLength word.toList)).nextPart? = some next ∧
      (c.skipBytes (byteLength word.toList)).index = c.index + byteLength word.toList ∧
      c.Advances next ∧ next.rest = joinWords words ∧
      (words ≠ [] → next.consumed = c.consumed ++ word.toList ++ [separator]) := by
  obtain ⟨hrest, hconsumed⟩ := c.skipBytes_token
  rw [token_of_joinWords hc hword] at hrest hconsumed
  set after := c.skipBytes (byteLength word.toList) with hafter
  have hindex : after.index = c.index + byteLength word.toList := by
    rw [index, hconsumed, byteLength_append, index]
  have hadvances : c.Advances after := hafter ▸ c.advances_skipBytes _
  by_cases hne : words = []
  · have hend : after.rest = [] := by
      rw [hc, hne, joinWords_singleton] at hrest
      exact List.self_eq_append_right.1 hrest
    refine ⟨after, ?_, hindex, hadvances, ?_, fun h => absurd hne h⟩
    · simp [nextPart?, peek, hend]
    · rw [hend, hne, joinWords_nil]
  · have hend : after.rest = separator :: joinWords words := by
      rw [hc, joinWords_cons word hne] at hrest
      exact (List.append_cancel_left hrest).symm
    have hadvances := hadvances.trans (after.advances_advance 1)
    refine ⟨after.advance 1, ?_, hindex, hadvances, ?_, fun _ => ?_⟩
    · simp [nextPart?, peek, hend]
    · simp [advance, hend]
    · simp [advance, hend, hconsumed]

end Cursor

/-! ### Paths of words -/

/-- The same trail with its literals up to an offset. -/
def Trail.literalsTo (t : Trail) (stop : Nat) : Trail :=
  { t with literals := { t.literals with stop } }

/-- A literal behind the others is where they end. -/
theorem Trail.addLiteral_eq_literalsTo {t : Trail} {span : Span}
    (hstart : t.literals.start ≤ span.start) (hstop : t.literals.stop ≤ span.stop) :
    t.addLiteral span = t.literalsTo span.stop := by
  rw [addLiteral, Span.hull, Nat.min_eq_left hstart, Nat.max_eq_right hstop]
  rfl

/-- Whether a kind is that of a literal whose name can be a token. -/
def Kind.isWord : Kind → Bool
  | .literal name => decide (IsToken name)
  | _ => false

theorem Kind.isWord_iff {kind : Kind} :
    kind.isWord = true ↔ ∃ name, kind = .literal name ∧ IsToken name := by
  cases kind <;> simp [isWord]

namespace Tree

variable {tree : Tree κ} {context : Context} {id child last : NodeId} {node : Node κ}
  {word : String} {words : List String} {count : Nat} {c : Cursor} {t : Trail}

/-- Every node but the root is a literal whose name can be a token, and none has a redirect. -/
structure OnlyWords (tree : Tree κ) : Prop where
  /-- A node that stands for something is such a literal. -/
  isWord : ∀ id kind, tree.kind? id = some kind → kind.isWord = true
  /-- There are no redirects. -/
  redirect : ∀ id, tree.redirect? id = none

theorem onlyWords_iff : tree.OnlyWords ↔ ∀ id < tree.size,
    (∀ kind ∈ tree.kind? id, kind.isWord = true) ∧ tree.redirect? id = none := by
  constructor
  · intro h id _
    exact ⟨h.isWord id, h.redirect id⟩
  · intro h
    refine ⟨fun id kind hk => ?_, fun id => ?_⟩
    · obtain ⟨symbol, hs, -⟩ := Option.map_eq_some_iff.1 hk
      exact (h id (lt_size_of_symbol? hs)).1 kind hk
    · by_contra hr
      obtain ⟨target, hr⟩ := Option.ne_none_iff_exists'.1 hr
      obtain ⟨symbol, hs, -⟩ := Option.bind_eq_some_iff.1 hr
      rw [(h id (lt_size_of_symbol? hs)).2] at hr
      cases hr

instance (tree : Tree κ) : Decidable tree.OnlyWords := decidable_of_iff _ onlyWords_iff.symm

theorem OnlyWords.exists_literal (hwords : tree.OnlyWords) {kind : Kind}
    (hk : tree.kind? id = some kind) : ∃ name, kind = .literal name ∧ IsToken name :=
  Kind.isWord_iff.1 (hwords.isWord id kind hk)

/-- A name leads to a child that may be used. -/
def UsableChild (tree : Tree κ) (context : Context) (id : NodeId) (name : String) (child : NodeId) :
    Prop :=
  tree.child? id name = .ok (some child) ∧ tree.canUse child context = .ok true

/-- Names, the first one first, lead from a node to another one, and every node behind the first may
be used. -/
inductive UsablePath (tree : Tree κ) (context : Context) :
    NodeId → List String → NodeId → Prop where
  /-- No name leads anywhere else. -/
  | nil (id : NodeId) : UsablePath tree context id [] id
  /-- One name more. -/
  | cons {id child last : NodeId} {name : String} {names : List String} :
      tree.UsableChild context id name child → UsablePath tree context child names last →
      UsablePath tree context id (name :: names) last

/-- So many of the first words, and no more of them, are a path from a node to another one. -/
structure LongestPath (tree : Tree κ) (context : Context) (id : NodeId) (words : List String)
    (count : Nat) (last : NodeId) : Prop where
  /-- There are as many words. -/
  le : count ≤ words.length
  /-- They are a path. -/
  path : tree.UsablePath context id (words.take count) last
  /-- There is no longer one. -/
  longest : ∀ other last', other ≤ words.length →
    tree.UsablePath context id (words.take other) last' → other ≤ count

theorem UsableChild.eq {other : NodeId} (h : tree.UsableChild context id word child)
    (h' : tree.UsableChild context id word other) : child = other :=
  Option.some.inj (Except.ok.inj (h.1.symm.trans h'.1))

theorem longestPath_nil_iff :
    tree.LongestPath context id [] count last ↔ count = 0 ∧ last = id := by
  constructor
  · rintro ⟨hle, hpath, -⟩
    obtain rfl := Nat.le_zero.1 hle
    cases hpath
    exact ⟨rfl, rfl⟩
  · rintro ⟨rfl, rfl⟩
    exact ⟨Nat.le_refl 0, .nil last, fun other _ hle _ => hle⟩

/-- A word that leads to a child goes on below it. -/
theorem longestPath_cons_iff_of_child (h : tree.UsableChild context id word child) :
    tree.LongestPath context id (word :: words) count last ↔
      ∃ below, count = below + 1 ∧ tree.LongestPath context child words below last := by
  have hstep : ∀ {below other}, tree.UsablePath context child (words.take below) other →
      tree.UsablePath context id ((word :: words).take (below + 1)) other :=
    fun hpath => .cons h hpath
  have hback : ∀ {below other},
      tree.UsablePath context id ((word :: words).take (below + 1)) other →
        tree.UsablePath context child (words.take below) other := by
    intro below other hpath
    rw [List.take_succ_cons] at hpath
    cases hpath with
    | cons hchild hpath => exact h.eq hchild ▸ hpath
  constructor
  · rintro ⟨hle, hpath, hlongest⟩
    have hone : 1 ≤ count := hlongest 1 child (Nat.le_add_left 1 words.length) (hstep (.nil child))
    obtain ⟨below, rfl⟩ := Nat.exists_eq_add_of_le' hone
    refine ⟨below, rfl, Nat.le_of_succ_le_succ hle, hback hpath, ?_⟩
    intro other last' hother hpath'
    have hle' := hlongest (other + 1) last' (Nat.succ_le_succ hother) (hstep hpath')
    exact Nat.le_of_succ_le_succ hle'
  · rintro ⟨below, rfl, hle, hpath, hlongest⟩
    refine ⟨Nat.succ_le_succ hle, hstep hpath, ?_⟩
    intro other last' hother hpath'
    cases other with
    | zero => exact Nat.zero_le _
    | succ other =>
      exact Nat.succ_le_succ (hlongest other last' (Nat.le_of_succ_le_succ hother) (hback hpath'))

/-- A word that leads nowhere ends the path before it. -/
theorem longestPath_cons_iff_of_none (h : ∀ child, ¬ tree.UsableChild context id word child) :
    tree.LongestPath context id (word :: words) count last ↔ count = 0 ∧ last = id := by
  have hzero : ∀ other last', tree.UsablePath context id ((word :: words).take other) last' →
      other = 0 ∧ last' = id := by
    intro other last' hpath
    cases other with
    | zero =>
      cases hpath
      exact ⟨rfl, rfl⟩
    | succ other =>
      cases hpath with
      | cons hchild _ => exact absurd hchild (h _)
  constructor
  · rintro ⟨-, hpath, -⟩
    exact hzero count last hpath
  · rintro ⟨rfl, rfl⟩
    refine ⟨Nat.zero_le _, .nil last, ?_⟩
    intro other last' _ hpath
    exact Nat.le_of_eq (hzero other last' hpath).1

theorem exists_longestPath (tree : Tree κ) (context : Context) (id : NodeId) (words : List String) :
    ∃ count last, tree.LongestPath context id words count last := by
  induction words generalizing id with
  | nil => exact ⟨0, id, longestPath_nil_iff.2 ⟨rfl, rfl⟩⟩
  | cons word words ih =>
    by_cases hchild : ∃ child, tree.UsableChild context id word child
    · obtain ⟨child, hchild⟩ := hchild
      obtain ⟨below, last, hbelow⟩ := ih child
      exact ⟨below + 1, last, (longestPath_cons_iff_of_child hchild).2 ⟨below, rfl, hbelow⟩⟩
    · exact ⟨0, id, (longestPath_cons_iff_of_none (not_exists.1 hchild)).2 ⟨rfl, rfl⟩⟩

/-! ### Following the words -/

/-- In a grammar of words a word is matched against the child of that name. -/
theorem OnlyWords.relevantChildren_eq (hwords : tree.OnlyWords) (hw : tree.WellFormed)
    (hn : tree.node? id = some node) (hc : c.token = word.toList) :
    node.relevantChildren c = (node.children.byName.find? word).toList := by
  have hl : ∀ child ∈ node.children.order, tree.hasKind Kind.isLiteral child = true := by
    intro child hm
    obtain ⟨name, hchild⟩ := hw.exists_child?_of_isChild ⟨node, hn, hm⟩
    obtain ⟨owner, ho, hid⟩ := child?_eq_ok_some_iff.1 hchild
    obtain ⟨kind, hk, -⟩ := Option.map_eq_some_iff.1 (hw.isChild_of_byName ho hid).2
    obtain ⟨text, rfl, -⟩ := hwords.exists_literal hk
    rw [hasKind, hk]
    rfl
  rw [(hw.indexed id node hn).relevantChildren_eq hl, hc, String.ofList_toList]

/-- A child of a name is a literal of that name. -/
theorem OnlyWords.exists_symbol (hwords : tree.OnlyWords) (hw : tree.WellFormed)
    (hchild : tree.UsableChild context id word child) :
    IsToken word ∧ ∃ owner node ending, tree.node? id = some owner ∧
      owner.children.byName.find? word = some child ∧ tree.node? child = some node ∧
      node.symbol? = some (.piece (.literal word) ending) ∧ node.canUse context = true := by
  obtain ⟨hid, hu⟩ := hchild
  obtain ⟨owner, ho, hid⟩ := child?_eq_ok_some_iff.1 hid
  obtain ⟨node, hn, hu⟩ := canUse_eq_ok.1 hu
  obtain ⟨hc, hname⟩ := hw.isChild_of_byName ho hid
  obtain ⟨kind, hk, hword⟩ := Option.map_eq_some_iff.1 hname
  obtain ⟨name, rfl, htoken⟩ := hwords.exists_literal hk
  obtain rfl : name = word := hword
  obtain ⟨ending, hs⟩ := exists_symbol_of_kind hk hn
  exact ⟨htoken, owner, node, ending, ho, hid, hn, hs, hu⟩

/-- A node that may not be used does not match. -/
theorem step_of_canUse_eq_false (hn : tree.node? id = some node)
    (hu : node.canUse context = false) :
    tree.step context id c t = .ok none := by
  simp only [step, node_eq_ok.2 hn, hu, Bool.false_eq_true, ↓reduceIte]
  cases node.symbol? <;> rfl

/-- A word that leads nowhere ends the match. -/
theorem matchFrom_of_no_usableChild (anchor : Option NodeId) (hwords : tree.OnlyWords)
    (hw : tree.WellFormed) (hn : tree.node? id = some node) (hc : c.rest = joinWords (word :: words))
    (hword : separator ∉ word.toList) (hnone : ∀ child, ¬ tree.UsableChild context id word child) :
    tree.matchFrom context id anchor c t =
      .ok (if node.isChild then some ⟨id, c, t⟩ else none) := by
  by_cases hrest : c.rest = []
  · exact matchFrom_of_end hn hrest
  · have hchildren := hwords.relevantChildren_eq hw hn (Cursor.token_of_joinWords hc hword)
    rw [matchFrom, node_eq_ok.2 hn]
    simp only [ne_eq, hrest, not_false_eq_true, ↓reduceDIte, hchildren]
    cases hid : node.children.byName.find? word with
    | none => exact matchAny_nil
    | some child =>
      obtain ⟨childNode, hchild⟩ := exists_node?_of_lt_size
        (hw.bounds_of_isChild (hw.isChild_of_byName hn hid).1).2
      have hu : childNode.canUse context = false := by
        by_contra hu
        exact hnone child ⟨child?_eq_ok_some_iff.2 ⟨node, hn, hid⟩,
          canUse_eq_ok.2 ⟨childNode, hchild, by simpa using hu⟩⟩
      exact (matchAny_cons_of_none (step_of_canUse_eq_false hchild hu)).trans matchAny_nil

/-- One that leads to a child is a literal of the path, and the other words are matched below. -/
theorem exists_matchFrom_of_usableChild (anchor : Option NodeId) (hwords : tree.OnlyWords)
    (hw : tree.WellFormed) (hn : tree.node? id = some node) (hc : c.rest = joinWords (word :: words))
    (hword : separator ∉ word.toList) (hchild : tree.UsableChild context id word child)
    (hstart : t.literals.start ≤ c.index) (hstop : t.literals.stop ≤ c.index) :
    ∃ childNode next, tree.node? child = some childNode ∧ childNode.isChild = true ∧
      c.Advances next ∧ next.rest = joinWords words ∧
      c.index + byteLength word.toList ≤ next.index ∧
      (words ≠ [] → next.index = c.index + byteLength word.toList + 1) ∧
      tree.matchFrom context id anchor c t =
        (tree.matchFrom context child (some child) next
          (t.literalsTo (c.index + byteLength word.toList))).map
            (·.or (if node.isChild then some ⟨id, c, t⟩ else none)) := by
  obtain ⟨htoken, owner, childNode, ending, ho, hid, hchildNode, hs, hu⟩ :=
    hwords.exists_symbol hw hchild
  obtain rfl := Option.some.inj (hn.symm.trans ho)
  obtain ⟨next, hnext, hindex, hadvances, hrest, hconsumed⟩ :=
    Cursor.exists_nextPart?_of_joinWords hc hword
  have hchildren := hwords.relevantChildren_eq hw hn (Cursor.token_of_joinWords hc hword)
  rw [hid, Option.toList_some] at hchildren
  have hreadable : c.rest ≠ [] := by
    rw [hc, ne_eq, joinWords_eq_nil_iff]
    rintro (h | h)
    · cases h
    · exact htoken.1 (List.cons.inj h).1
  have hr : childNode.redirect? = none :=
    (redirect?_of_node? hchildNode).symm.trans (hwords.redirect child)
  have hliterals : t.addLiteral (c.spanTo (c.skipBytes (byteLength word.toList))) =
      t.literalsTo (c.index + byteLength word.toList) := by
    rw [← hindex]
    refine Trail.addLiteral_eq_literalsTo hstart (Nat.le_trans hstop ?_)
    exact (c.advances_skipBytes _).index_le
  refine ⟨childNode, next, hchildNode, by rw [Node.isChild, hs]; rfl, hadvances, hrest, ?_, ?_, ?_⟩
  · rw [← hindex]
    exact (Cursor.gap_of_nextPart? hnext).advances.index_le
  · intro hne
    rw [Cursor.index, hconsumed hne, byteLength_append, byteLength_append]
    rfl
  · rw [matchFrom_of_literal hn hchildren hreadable hchildNode hs hu hr hnext, hliterals]

/-- **Matching follows the words**: as many of them as are a path of nodes that may be used. -/
theorem matchFrom_words (hwords : tree.OnlyWords) (hw : tree.WellFormed)
    (htext : ∀ word ∈ words, separator ∉ word.toList) (anchor : Option NodeId)
    (hn : tree.node? id = some node)
    (hc : c.rest = joinWords words) (hstart : t.literals.start ≤ c.index)
    (hstop : t.literals.stop ≤ c.index) (hlong : tree.LongestPath context id words count last) :
    (count = 0 → tree.matchFrom context id anchor c t =
      .ok (if node.isChild then some ⟨id, c, t⟩ else none)) ∧
    (0 < count → ∃ e, c.Advances e ∧ e.rest = joinWords (words.drop count) ∧
      tree.matchFrom context id anchor c t = .ok (some ⟨last, e,
        t.literalsTo (c.index + byteLength (joinWords (words.take count)))⟩)) := by
  induction words generalizing id node anchor c t count with
  | nil =>
    obtain ⟨rfl, -⟩ := longestPath_nil_iff.1 hlong
    exact ⟨fun _ => matchFrom_of_end hn hc, fun h => absurd h (Nat.lt_irrefl 0)⟩
  | cons word words ih =>
    obtain ⟨hword, htext⟩ := List.forall_mem_cons.1 htext
    by_cases hchild : ∃ child, tree.UsableChild context id word child
    · obtain ⟨child, hchild⟩ := hchild
      obtain ⟨below, rfl, hbelow⟩ := (longestPath_cons_iff_of_child hchild).1 hlong
      obtain ⟨childNode, next, hchildNode, hisChild, hadvances, hrest, hreach, hindex, hmatch⟩ :=
        exists_matchFrom_of_usableChild anchor hwords hw hn hc hword hchild hstart hstop
      obtain ⟨hend, hgo⟩ := ih htext (some child) hchildNode hrest
        (t := t.literalsTo (c.index + byteLength word.toList))
        (Nat.le_trans hstart hadvances.index_le) hreach hbelow
      refine ⟨fun h => absurd h (Nat.succ_ne_zero below), fun _ => ?_⟩
      rw [hmatch]
      cases below with
      | zero =>
        obtain rfl : last = child := by
          cases hbelow.path
          rfl
        refine ⟨next, hadvances, hrest, ?_⟩
        rw [hend rfl, if_pos hisChild, List.take_succ_cons, List.take_zero, joinWords_singleton]
        rfl
      | succ below =>
        obtain ⟨e, he, hdrop, hfound⟩ := hgo (Nat.succ_pos below)
        refine ⟨e, hadvances.trans he, hdrop, ?_⟩
        have hne : words ≠ [] :=
          List.ne_nil_of_length_pos (Nat.lt_of_lt_of_le (Nat.succ_pos below) hbelow.le)
        have htake : words.take (below + 1) ≠ [] := by simpa using hne
        have hstop' : next.index + byteLength (joinWords (words.take (below + 1))) =
            c.index + byteLength (joinWords ((word :: words).take (below + 1 + 1))) := by
          rw [List.take_succ_cons, joinWords_cons word htake, byteLength_append, byteLength_cons,
            hindex hne, show separator.utf8Size = 1 from rfl]
          omega
        rw [hfound, hstop']
        rfl
    · obtain ⟨rfl, rfl⟩ := (longestPath_cons_iff_of_none (not_exists.1 hchild)).1 hlong
      refine ⟨fun _ => ?_, fun h => absurd h (Nat.lt_irrefl 0)⟩
      exact matchFrom_of_no_usableChild anchor hwords hw hn hc hword (not_exists.1 hchild)

/-- The words of a path can be tokens. -/
theorem UsablePath.isToken (hwords : tree.OnlyWords) (hw : tree.WellFormed)
    (h : tree.UsablePath context id words last) : ∀ word ∈ words, IsToken word := by
  induction h with
  | nil => simp
  | cons hchild _ ih =>
    rw [List.forall_mem_cons]
    exact ⟨(hwords.exists_symbol hw hchild).1, ih⟩

end Tree

namespace Dispatcher

variable {d : Dispatcher κ} {context : Context} {line : String} {count : Nat} {last : NodeId}

/-- What is found in a line of a grammar of words. -/
theorem parse_eq_of_longestPath (h : d.Reachable) (hwords : d.tree.OnlyWords)
    (hlong : d.tree.LongestPath context Tree.root (wordsOf line) count last) :
    (count = 0 → d.parse context line = .ok none) ∧
    (0 < count → ∃ e, (Cursor.atStart line).Advances e ∧
      e.rest = joinWords ((wordsOf line).drop count) ∧
      d.parse context line = .ok (some ⟨last, e, ⟨⟨context, ∅, []⟩,
        ⟨0, byteLength (joinWords ((wordsOf line).take count))⟩⟩⟩)) := by
  have hw := h.tree.wellFormed
  obtain ⟨node, hn, hroot⟩ := hw.exists_root
  obtain ⟨hnone, hsome⟩ := Tree.matchFrom_words (t := .start context (.atStart line)) hwords hw
    (fun word hword => separator_notMem_of_mem_wordsOf hword) none hn
    (joinWords_wordsOf line).symm (Nat.le_refl _) (Nat.le_refl _) hlong
  refine ⟨fun hcount => ?_, fun hcount => ?_⟩
  · have hparse := hnone hcount
    rw [hroot] at hparse
    exact hparse
  · obtain ⟨e, hadvances, hrest, hparse⟩ := hsome hcount
    refine ⟨e, hadvances, hrest, hparse.trans ?_⟩
    simp only [Trail.literalsTo, Trail.start, Cursor.atStart, Cursor.index, Span.point,
      byteLength_nil, Nat.zero_add]

/-- A line that begins with a path and goes on with one empty word at most is used up by it. -/
theorem longestPath_of_path (h : d.Reachable) (hwords : d.tree.OnlyWords) {names : List String}
    (hpath : d.tree.UsablePath context Tree.root names last)
    (hline : wordsOf line = names ∨ wordsOf line = names ++ [""]) :
    d.tree.LongestPath context Tree.root (wordsOf line) names.length last := by
  have hw := h.tree.wellFormed
  rcases hline with hline | hline
  · rw [hline]
    refine ⟨Nat.le_refl _, by rwa [List.take_length], ?_⟩
    intro other last' hother _
    exact hother
  · rw [hline]
    refine ⟨by simp, by rwa [List.take_left], ?_⟩
    intro other last' hother hother'
    rw [List.length_append, List.length_singleton] at hother
    by_contra hlt
    -- a path through all words would have the empty one
    obtain rfl : other = names.length + 1 := by omega
    rw [List.take_of_length_le (by simp)] at hother'
    exact (hother'.isToken hwords hw "" (by simp)).1 rfl

/-- The words of a line that is used up are a path, with one empty word behind them at most. -/
theorem exists_path_of_isComplete (h : d.Reachable) (hwords : d.tree.OnlyWords) {m : Match}
    (hp : d.parse context line = .ok (some m)) (hm : m.isComplete = true) :
    ∃ names last, names ≠ [] ∧ d.tree.UsablePath context Tree.root names last ∧
      (line.toList = joinWords names ∨ line.toList = joinWords names ++ [separator]) := by
  obtain ⟨count, last, hlong⟩ := d.tree.exists_longestPath context Tree.root (wordsOf line)
  obtain ⟨hnone, hsome⟩ := parse_eq_of_longestPath h hwords hlong
  rcases Nat.eq_zero_or_pos count with hcount | hcount
  · rw [hnone hcount] at hp
    cases hp
  · obtain ⟨e, -, hrest, hparse⟩ := hsome hcount
    obtain rfl := Option.some.inj (Except.ok.inj (hparse.symm.trans hp))
    have hne : (wordsOf line).take count ≠ [] :=
      List.ne_nil_of_length_pos (by rw [List.length_take, Nat.min_eq_left hlong.le]; exact hcount)
    have hline := joinWords_wordsOf line
    rw [← List.take_append_drop count (wordsOf line)] at hline
    rw [Match.isComplete_iff, hrest, joinWords_eq_nil_iff] at hm
    refine ⟨(wordsOf line).take count, last, hne, hlong.path, ?_⟩
    rcases hm with hm | hm
    · left
      rw [← hline, hm, List.append_nil]
    · right
      rw [← hline, hm, joinWords_append_empty hne]

/-- A line that is a path of words with one separator behind them at most is used up by it. -/
theorem exists_isComplete_of_path (h : d.Reachable) (hwords : d.tree.OnlyWords)
    {names : List String} (hne : names ≠ [])
    (hpath : d.tree.UsablePath context Tree.root names last)
    (hline : line.toList = joinWords names ∨ line.toList = joinWords names ++ [separator]) :
    ∃ m, d.parse context line = .ok (some m) ∧ m.isComplete = true := by
  have hnames : ∀ word ∈ names, separator ∉ word.toList := fun word hword =>
    (hpath.isToken hwords h.tree.wellFormed word hword).2
  have hsplit : wordsOf line = names ∨ wordsOf line = names ++ [""] := by
    refine hline.imp (fun hl => wordsOf_of_toList_eq hl hnames hne) fun hl => ?_
    rw [← joinWords_append_empty hne] at hl
    refine wordsOf_of_toList_eq hl ?_ (by simp)
    intro word hword
    rcases List.mem_append.1 hword with hword | hword
    · exact hnames word hword
    · simp [List.mem_singleton.1 hword]
  obtain ⟨-, hsome⟩ := parse_eq_of_longestPath h hwords (longestPath_of_path h hwords hpath hsplit)
  obtain ⟨e, -, hrest, hparse⟩ := hsome (List.length_pos_iff.2 hne)
  refine ⟨_, hparse, ?_⟩
  rw [Match.isComplete_iff, hrest, joinWords_eq_nil_iff]
  refine hsplit.imp (fun hs => ?_) fun hs => ?_
  · rw [hs, List.drop_length]
  · rw [hs, List.drop_left]

/-- **In a grammar of words matching is following the words.** A line matches as many of its first
words as are a path from the root by way of nodes that may be used. If there is none, then there is
no match; and otherwise the match ends at the last one, with the next word left to read, no
arguments, no flags, and the words of the path as its literals. It uses up the line exactly if no
word is left or one empty word, and there is such a match exactly if the line is a path of words with
one separator behind them at most. -/
theorem parse_eq_of_onlyWords (h : d.Reachable) (hwords : d.tree.OnlyWords) (context : Context)
    (line : String) :
    (∃ count last, d.tree.LongestPath context Tree.root (wordsOf line) count last) ∧
    (∀ count last, d.tree.LongestPath context Tree.root (wordsOf line) count last →
      (count = 0 → d.parse context line = .ok none) ∧
      (0 < count → ∃ m, d.parse context line = .ok (some m) ∧ m.node = last ∧
        m.cursor.line = line.toList ∧ m.cursor.rest = joinWords ((wordsOf line).drop count) ∧
        m.trail = ⟨⟨context, ∅, []⟩,
          ⟨0, byteLength (joinWords ((wordsOf line).take count))⟩⟩ ∧
        (m.isComplete = true ↔
          (wordsOf line).drop count = [] ∨ (wordsOf line).drop count = [""]))) ∧
    ((∃ m, d.parse context line = .ok (some m) ∧ m.isComplete = true) ↔
      ∃ names last, names ≠ [] ∧ d.tree.UsablePath context Tree.root names last ∧
        (line.toList = joinWords names ∨ line.toList = joinWords names ++ [separator])) ∧
    ∃ found, d.parse context line = .ok found := by
  refine ⟨d.tree.exists_longestPath context Tree.root (wordsOf line), ?_, ⟨?_, ?_⟩, ?_⟩
  · intro count last hlong
    obtain ⟨hnone, hsome⟩ := parse_eq_of_longestPath h hwords hlong
    refine ⟨hnone, fun hcount => ?_⟩
    obtain ⟨e, hadvances, hrest, hparse⟩ := hsome hcount
    refine ⟨_, hparse, rfl, hadvances.line_eq, hrest, rfl, ?_⟩
    rw [Match.isComplete_iff, hrest, joinWords_eq_nil_iff]
  · rintro ⟨m, hp, hm⟩
    exact exists_path_of_isComplete h hwords hp hm
  · rintro ⟨names, last, hne, hpath, hline⟩
    exact exists_isComplete_of_path h hwords hne hpath hline
  · obtain ⟨count, last, hlong⟩ := d.tree.exists_longestPath context Tree.root (wordsOf line)
    obtain ⟨hnone, hsome⟩ := parse_eq_of_longestPath h hwords hlong
    rcases Nat.eq_zero_or_pos count with hcount | hcount
    · exact ⟨none, hnone hcount⟩
    · obtain ⟨e, -, -, hparse⟩ := hsome hcount
      exact ⟨_, hparse⟩

/-- A word with two others below it, one of which nobody may use. -/
def fooWithTwo : Except Violation (Dispatcher Unit) := do
  let bär ← (literal "bär").executes ()
  let foo ← (literal "foo").child bär.toSpec
  let foo ← foo.child ((literal "secret").requires fun _ => false).toSpec
  let (d, _) ← ({} : Dispatcher Unit).register foo
  return d

theorem reachable_of_fooWithTwo {d : Dispatcher Unit} (h : fooWithTwo = .ok d) : d.Reachable := by
  obtain ⟨bär, hbär, h⟩ := exists_of_bind_eq_ok h
  obtain ⟨foo, hfoo, h⟩ := exists_of_bind_eq_ok h
  obtain ⟨foo', hfoo', h⟩ := exists_of_bind_eq_ok h
  obtain ⟨⟨d₁, id⟩, h₁, h⟩ := exists_of_bind_eq_ok h
  cases h
  have hbär := (CommandDraft.Drafted.literal "bär").executes hbär
  have hsecret : (((literal "secret").requires fun _ => false) : CommandDraft Unit).Drafted :=
    (CommandDraft.Drafted.literal "secret").requires _
  have hfoo := (CommandDraft.Drafted.literal "foo").child (.command hbär) hfoo
  exact (Reachable.start {}).register (hfoo.child (.command hsecret) hfoo') h₁

/-- Two words and a separator use up the line, and the literals end where the separator begins. -/
theorem parse_eq_of_onlyWords_fooWithTwo :
    ∃ (d : Dispatcher Unit) (m : Match), fooWithTwo = .ok d ∧ d.Reachable ∧ d.tree.OnlyWords ∧
      wordsOf "foo bär " = ["foo", "bär", ""] ∧
      d.tree.LongestPath .empty Tree.root ["foo", "bär", ""] 2 2 ∧
      d.tree.LongestPath .empty Tree.root ["foo", "secret"] 1 1 ∧
      d.parse .empty "foo bär " = .ok (some m) ∧ m.node = 2 ∧ m.isComplete = true ∧
      m.trail = ⟨⟨.empty, ∅, []⟩, ⟨0, 8⟩⟩ := by
  have hrun : fooWithTwo.map (fun d => decide (d.tree.OnlyWords ∧
      d.tree.child? Tree.root "foo" = .ok (some 1) ∧ d.tree.canUse 1 .empty = .ok true ∧
      d.tree.child? 1 "bär" = .ok (some 2) ∧ d.tree.canUse 2 .empty = .ok true ∧
      d.tree.child? 1 "secret" = .ok (some 3) ∧ d.tree.canUse 3 .empty = .ok false ∧
      d.tree.child? 2 "" = .ok none)) = .ok true := by
    decide +kernel
  have hsplit : wordsOf "foo bär " = ["foo", "bär", ""] := by decide +kernel
  have hlength : byteLength (joinWords ["foo", "bär"]) = 8 := by decide +kernel
  obtain ⟨d, h, hd⟩ := exists_of_map_eq_ok hrun
  obtain ⟨hwords, hfoo, hu₁, hbär, hu₂, hsecret, hu₃, hnone⟩ := of_decide_eq_true hd
  have hreach := reachable_of_fooWithTwo h
  have hfoo : d.tree.UsableChild .empty Tree.root "foo" 1 := ⟨hfoo, hu₁⟩
  have hlong : d.tree.LongestPath .empty Tree.root ["foo", "bär", ""] 2 2 := by
    refine (Tree.longestPath_cons_iff_of_child hfoo).2 ⟨1, rfl, ?_⟩
    refine (Tree.longestPath_cons_iff_of_child ⟨hbär, hu₂⟩).2 ⟨0, rfl, ?_⟩
    refine (Tree.longestPath_cons_iff_of_none fun child hchild => ?_).2 ⟨rfl, rfl⟩
    cases hnone.symm.trans hchild.1
  have hshort : d.tree.LongestPath .empty Tree.root ["foo", "secret"] 1 1 := by
    refine (Tree.longestPath_cons_iff_of_child hfoo).2 ⟨0, rfl, ?_⟩
    refine (Tree.longestPath_cons_iff_of_none fun child hchild => ?_).2 ⟨rfl, rfl⟩
    obtain rfl := Option.some.inj (Except.ok.inj (hsecret.symm.trans hchild.1))
    cases hu₃.symm.trans hchild.2
  obtain ⟨-, hall, -, -⟩ := parse_eq_of_onlyWords hreach hwords .empty "foo bär "
  rw [hsplit] at hall
  obtain ⟨m, hp, hnode, -, -, htrail, hcomplete⟩ := (hall 2 2 hlong).2 (by decide)
  rw [show ["foo", "bär", ""].take 2 = ["foo", "bär"] from rfl, hlength] at htrail
  exact ⟨d, m, h, hreach, hwords, hsplit, hlong, hshort, hp, hnode, hcomplete.2 (.inr rfl), htrail⟩

end Dispatcher

end CommandGrammar
