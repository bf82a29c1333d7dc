import CommandGrammar.Grammar.Symbol

/-!
# Grammars

A `Tree` is a grammar: a root without a name and nodes below it, kept in an array in the order in
which they were inserted. A node refers to others by their place in the array. Nodes that were
removed from their parent stay in the array, so a place once given out keeps its node.

The children of a node are kept in order, and besides by name, with literals, arguments and flags
apart, since a line is matched against a literal first.
-/

namespace CommandGrammar

/-- The children of a node. -/
structure Children where
  /-- All children in the order of insertion. -/
  order : List NodeId := []
  /-- All children by name. -/
  byName : Table String NodeId := ∅
  /-- The literals by name. -/
  literals : Table String NodeId := ∅
  /-- The arguments in the order of insertion. -/
  arguments : List NodeId := []
  /-- The flags in the order of insertion. -/
  flags : List NodeId := []

namespace Children

variable {κ : Type}

/-- Adds a node behind the others, under the name and among the kind of its symbol. -/
def insert (children : Children) (symbol : Symbol κ) (id : NodeId) : Children :=
  let children :=
    { children with
      order := children.order ++ [id]
      byName := children.byName.insert symbol.name id }
  match symbol with
  | .piece (.literal name) _ => { children with literals := children.literals.insert name id }
  | .piece (.argument _) _ => { children with arguments := children.arguments ++ [id] }
  | .flag _ => { children with flags := children.flags ++ [id] }

/-- Takes out the node of a name. -/
def erase (children : Children) (name : String) (id : NodeId) : Children where
  order := children.order.filter (· ≠ id)
  byName := children.byName.erase name
  literals := children.literals.erase name
  arguments := children.arguments.filter (· ≠ id)
  flags := children.flags.filter (· ≠ id)

end Children

/-- A node of a grammar. -/
structure Node (κ : Type) where
  /-- What the node stands for; nothing, if it is the root. -/
  symbol? : Option (Symbol κ)
  /-- When the node may be used; always, if there is none. -/
  requirement : Option Requirement := none
  /-- The nodes directly below. -/
  children : Children := {}

namespace Node

variable {κ : Type}

/-- The name of a node; the root has the empty one. -/
def name (node : Node κ) : String := (node.symbol?.map Symbol.name).getD ""

/-- Whether a node lies below another one. -/
def isChild (node : Node κ) : Bool := node.symbol?.isSome

/-- Whether a node is a flag. -/
def isFlag (node : Node κ) : Bool := node.symbol?.any Symbol.isFlag

/-- What becomes of a line that ends at the node, if one can end there. -/
def ending? (node : Node κ) : Option (Ending κ) := node.symbol?.bind Symbol.ending?

/-- The command of a node. -/
def command? (node : Node κ) : Option κ := node.ending?.bind Ending.command

/-- The redirect of a node. -/
def redirect? (node : Node κ) : Option NodeId := node.ending?.bind Ending.redirect

/-- Whether a node may be used in a context. -/
def canUse (node : Node κ) (context : Context) : Bool :=
  node.requirement.all fun requirement => requirement context

/-- The children that the text at a place with something left to read may match: the literal that is
the next token, alone, if there is one, and otherwise all arguments and then all flags. -/
def relevantChildren (node : Node κ) (c : Cursor) : List NodeId :=
  match node.children.literals.find? (String.ofList c.token) with
  | some literal => [literal]
  | none => node.children.arguments ++ node.children.flags

end Node

/-- A grammar with commands of type `κ`. -/
structure Tree (κ : Type) where
  /-- The nodes in the order of insertion; the first one is the root. -/
  nodes : Array (Node κ)

namespace Tree

variable {κ : Type}

/-- The root. -/
def root : NodeId := 0

/-- The grammar of a root alone. -/
def empty : Tree κ := ⟨#[{ symbol? := none }]⟩

instance : Inhabited (Tree κ) := ⟨empty⟩

/-- The number of nodes, those removed from their parents among them. -/
def size (tree : Tree κ) : Nat := tree.nodes.size

/-- The node at a place, if there is one. -/
def node? (tree : Tree κ) (id : NodeId) : Option (Node κ) := tree.nodes[id]?

/-- The node at a place, which must be there. -/
def node (tree : Tree κ) (id : NodeId) : Except Violation (Node κ) :=
  match tree.node? id with
  | some node => .ok node
  | none => .error (.unknownNode tree.size id)

theorem node_eq_ok {tree : Tree κ} {id : NodeId} {node : Node κ} :
    tree.node id = .ok node ↔ tree.node? id = some node := by
  unfold Tree.node
  split <;> simp_all

/-- The children of a node in the order of insertion. -/
def children (tree : Tree κ) (id : NodeId) : Except Violation (List NodeId) :=
  (tree.node id).map fun node => node.children.order

/-- Whether there is nothing below the root. -/
def isEmpty (tree : Tree κ) : Bool :=
  (tree.node? root).all fun node => node.children.order.isEmpty

/-- The child of a name. -/
def child? (tree : Tree κ) (id : NodeId) (name : String) : Except Violation (Option NodeId) :=
  (tree.node id).map fun node => node.children.byName.find? name

/-- The node at the end of a path of names, from a node on. -/
def findFrom? (tree : Tree κ) (id : NodeId) : List String → Except Violation (Option NodeId)
  | [] => .ok (some id)
  | name :: path =>
    match tree.child? id name with
    | .error violation => .error violation
    | .ok none => .ok none
    | .ok (some next) => tree.findFrom? next path

/-- The node at the end of a path of names. -/
def find? (tree : Tree κ) (path : List String) : Except Violation (Option NodeId) :=
  tree.findFrom? root path

/-- Whether a node may be used in a context. -/
def canUse (tree : Tree κ) (id : NodeId) (context : Context) : Except Violation Bool :=
  (tree.node id).map fun node => node.canUse context

/-- The children of a node that the text at a place may match. Nothing matches at the end of a
line. -/
def relevantChildren (tree : Tree κ) (id : NodeId) (c : Cursor) :
    Except Violation (List NodeId) :=
  if c.readable then (tree.node id).map fun node => node.relevantChildren c else .ok []

end Tree

end CommandGrammar
