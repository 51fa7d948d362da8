import Concordance.Expression.Validation

/-!
# Expressions

An expression is a list of nodes that has passed validation, kept together with
the root and the parents that validation found. Nodes are addressed by their
position in the list.
-/
namespace Concordance

/-- A definition as a validated tree of nodes. -/
structure Expression where
  nodes : Arena Node
  root : Nat
  parents : Validation.Parents
  valid : Validation.validate nodes = .ok (root, parents)

namespace Expression

/-- The expression of a list of nodes, or the first violation in it. -/
def ofNodes (nodes : Arena Node) : Except StructuralError Expression :=
  match valid : Validation.validate nodes with
  | .error e => .error e
  | .ok (root, parents) => .ok ⟨nodes, root, parents, valid⟩

variable (e : Expression)

def size : Nat :=
  e.nodes.size

def graph : Graph :=
  Validation.graph e.nodes e.root

def kind? (n : Nat) : Option Kind :=
  e.graph.kind? n

/-- Children of a node in stored order; none for a number out of range. -/
def children (n : Nat) : List Nat :=
  e.graph.children n

/-- Parent of a node; none for the root and for a number out of range. -/
def parent? (n : Nat) : Option Nat :=
  e.parents[n]?.getD none

/-- Continues with the parents above a node, for at most the given number of steps. -/
def climb : (steps : Nat) → Nat → List Nat
  | 0, _ => []
  | steps + 1, n =>
    match e.parent? n with
    | none => []
    | some p => p :: climb steps p

/-- Strict ancestors of a node, nearest first. A path to the root is shorter than the number of
nodes. -/
def ancestors (n : Nat) : List Nat :=
  e.climb e.size n

/-- Whether the first node is a strict ancestor of the second. -/
def isAncestor (a n : Nat) : Bool :=
  (e.ancestors n).contains a

/-- Number of steps from the root to a node. -/
def depth (n : Nat) : Nat :=
  (e.ancestors n).length

def postOrder : List Nat :=
  e.graph.postOrder

def preOrder : List Nat :=
  e.graph.preOrder

end Expression
end Concordance
