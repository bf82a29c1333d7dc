import CommandGrammar.Grammar.Tree
import CommandGrammar.Usage.Style

/-!
# Usage lines

The usage of a node is one line for each of its children that may be used. A line begins with the
child's own name. As long as there is one way to go on, and it has to be taken, the line follows it;
then it ends in one of these ways: with nothing more, with the target of a redirect, with the one way
that may be taken, or with the alternatives. What follows a command or a flag may be left out.

A line follows a chain of children, each of which was inserted after its parent, so it ends even if
redirects run in circles.
-/

namespace CommandGrammar

/-- A node by itself: its name, with an argument in its brackets. -/
def Node.fragment {κ : Type} (style : UsageStyle) (node : Node κ) : String :=
  match node.symbol? with
  | some (.piece (.argument a) _) => style.argumentOpen ++ a.name ++ style.argumentClose
  | _ => node.name

/-- Whether what follows a node may be left out: a line may end here with a command, or the node is a
flag or the root. -/
def Node.restOptional {κ : Type} (node : Node κ) : Bool :=
  node.ending?.all fun ending => ending.command.isSome

/-- Two parts of a line with a separator between them, unless the second one is empty. -/
def joinParts (first second : String) : String :=
  if second.isEmpty then first else first ++ String.singleton separator ++ second

/-- The texts of a list without repetitions, each where it occurs first. -/
def distinct (texts : List String) : List String :=
  texts.foldl (fun seen text => if text ∈ seen then seen else seen ++ [text]) []

namespace Tree

variable {κ : Type}

/-- Those of some nodes that may be used, with their places. -/
def usable (tree : Tree κ) (context : Context) :
    List NodeId → Except Violation (List (NodeId × Node κ))
  | [] => .ok []
  | id :: ids => do
    let node ← tree.node id
    let others ← tree.usable context ids
    return if node.canUse context then (id, node) :: others else others

/-- The alternatives behind a node: just one if all look the same, and otherwise a group. -/
def alternatives (style : UsageStyle) (this : String) (optional : Bool) (nodes : List (Node κ)) :
    String :=
  let names := nodes.map (Node.fragment style)
  match distinct (names.map (style.mark optional)) with
  | [one] => joinParts this one
  | _ => this ++ String.singleton separator ++ style.group optional names

/-- The line of a node. -/
def describe (tree : Tree κ) (style : UsageStyle) (context : Context) (id : NodeId)
    (optional : Bool) : Except Violation String := do
  let node ← tree.node id
  let this := style.mark optional (node.fragment style)
  match node.redirect? with
  | some target =>
    let targetNode ← tree.node target
    return this ++ String.singleton separator ++ style.redirect ++ String.singleton separator
      ++ targetNode.fragment style
  | none =>
    match ← tree.usable context node.children.order with
    | [] => return this
    | [(only, onlyNode)] =>
      if node.restOptional then return joinParts this (style.mark true (onlyNode.fragment style))
      else if _h : id < only ∧ only < tree.size then
        return joinParts this (← tree.describe style context only false)
      else return this
    | many => return alternatives style this node.restOptional (many.map Prod.snd)
termination_by tree.size - id
decreasing_by exact Nat.sub_lt_sub_left (Nat.lt_trans _h.1 _h.2) _h.1

/-- The lines of some nodes that may be used. -/
def describeAll (tree : Tree κ) (style : UsageStyle) (context : Context) (optional : Bool) :
    List NodeId → Except Violation (List (NodeId × String))
  | [] => .ok []
  | id :: ids => do
    if ← tree.canUse id context then
      let line ← tree.describe style context id optional
      let lines ← tree.describeAll style context optional ids
      return (id, line) :: lines
    else tree.describeAll style context optional ids

/-- The lines of the children of a node, in the order of insertion. -/
def usage (tree : Tree κ) (style : UsageStyle) (context : Context) (id : NodeId) :
    Except Violation (List (NodeId × String)) := do
  let node ← tree.node id
  tree.describeAll style context node.command?.isSome node.children.order

end Tree

end CommandGrammar
