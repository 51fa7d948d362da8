import Concordance.Expression

/-!
# Building expressions bottom-up

A builder collects nodes; every step answers with the position of the new node,
to be used as a child of later ones. Nothing is checked before the end.
-/
namespace Concordance

/-- Nodes collected so far. -/
structure Builder where
  nodes : Arena Node := .empty

namespace Builder

/-- Adds a node of any kind. -/
def push (b : Builder) (kind : Kind) (children : List Nat) : Nat × Builder :=
  (b.nodes.size, ⟨b.nodes.push ⟨kind, children⟩⟩)

def concept (b : Builder) (key : Key) : Nat × Builder :=
  b.push (.concept key) []

def literal (b : Builder) (value : Literal) : Nat × Builder :=
  b.push (.literal value) []

def existential (b : Builder) (role : Key) (child : Nat) : Nat × Builder :=
  b.push (.existential role) [child]

def universal (b : Builder) (role : Key) (child : Nat) : Nat × Builder :=
  b.push (.universal role) [child]

def conjunction (b : Builder) (children : List Nat) : Nat × Builder :=
  b.push .conjunction children

def disjunction (b : Builder) (children : List Nat) : Nat × Builder :=
  b.push .disjunction children

def disjointWith (b : Builder) (children : List Nat) : Nat × Builder :=
  b.push .disjointWith children

def necessarySet (b : Builder) (child : Nat) : Nat × Builder :=
  b.push .necessarySet [child]

def sufficientSet (b : Builder) (child : Nat) : Nat × Builder :=
  b.push .sufficientSet [child]

def propertySet (b : Builder) (child : Nat) : Nat × Builder :=
  b.push .propertySet [child]

def root (b : Builder) (children : List Nat) : Nat × Builder :=
  b.push .root children

def size (b : Builder) : Nat :=
  b.nodes.size

def isEmpty (b : Builder) : Bool :=
  b.nodes.isEmpty

def build (b : Builder) : Except StructuralError Expression :=
  Expression.ofNodes b.nodes

end Builder
end Concordance
