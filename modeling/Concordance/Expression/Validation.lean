import Concordance.Arena
import Concordance.Expression.Error
import Concordance.Graph

/-!
# Validation of node lists

A list of nodes is an expression when it is a single tree under one root and
every node has a number of children that its kind admits. Validation looks for
violations in a fixed order: first at every node by itself, then at every child
reference, then for nodes without a parent, and last for nodes that the root
does not reach. It answers with the root and the parent of every node.
-/
namespace Concordance

/-- A node: its kind, and its children as positions in the same list of nodes. -/
structure Node where
  kind : Kind
  children : List Nat
deriving DecidableEq

namespace Validation

/-- Parent of every node, as far as one is known. -/
abbrev Parents := Array (Option Nat)

/-- Checks one node by itself and keeps track of the root seen so far. -/
def checkNode (size : Nat) (root : Option Nat) (index : Nat) (node : Node) :
    Except StructuralError (Option Nat) :=
  match node.children.find? (fun child => decide (size ≤ child)) with
  | some child => .error (.danglingChild index child)
  | none =>
    if node.kind.arity.admits node.children.length then
      if node.kind = .root then
        match root with
        | none => .ok (some index)
        | some first => .error (.multipleRoots first index)
      else .ok root
    else .error (.arityViolation index node.kind node.children.length)

/-- Checks every node by itself and answers with the only root. -/
def findRoot (nodes : Arena Node) : Except StructuralError Nat :=
  match nodes.entries.foldlM (fun root entry => checkNode nodes.size root entry.1 entry.2) none with
  | .error e => .error e
  | .ok none => .error .missingRoot
  | .ok (some root) => .ok root

/-- All child references, as pairs of parent and child. -/
def references (nodes : Arena Node) : List (Nat × Nat) :=
  nodes.entries.flatMap fun entry => entry.2.children.map (entry.1, ·)

/-- Notes the parent of one child. -/
def adopt (root : Nat) (parents : Parents) (reference : Nat × Nat) :
    Except StructuralError Parents :=
  let (parent, child) := reference
  if child = root then .error (.rootHasParent parent)
  else if child = parent then .error (.cycleDetected parent)
  else
    match parents[child]? with
    | some (some first) => .error (.sharedChild child first parent)
    | _ => .ok (parents.setIfInBounds child (some parent))

/-- The parent of every node that some node lists as a child. -/
def findParents (nodes : Arena Node) (root : Nat) : Except StructuralError Parents :=
  (references nodes).foldlM (adopt root) (Array.replicate nodes.size none)

/-- The nodes as a graph from a given root. -/
def graph (nodes : Arena Node) (root : Nat) : Graph where
  root := root
  size := nodes.size
  kind? n := (nodes.get? n).map (·.kind)
  children n := ((nodes.get? n).map (·.children)).getD []

/-- Refuses nodes without a parent, and nodes that the root does not reach. -/
def checkConnected (nodes : Arena Node) (root : Nat) (parents : Parents) :
    Except StructuralError Unit :=
  match nodes.indices.find? (fun n => n != root && (parents[n]?.getD none).isNone) with
  | some n => .error (.orphanNode n)
  | none =>
    let reached := (graph nodes root).preOrder
    match nodes.indices.find? (fun n => !reached.contains n) with
    | some n => .error (.cycleDetected n)
    | none => .ok ()

/-- The root and the parents of a list of nodes that is an expression. -/
def validate (nodes : Arena Node) : Except StructuralError (Nat × Parents) := do
  let root ← findRoot nodes
  let parents ← findParents nodes root
  checkConnected nodes root parents
  return (root, parents)

end Validation
end Concordance
