import Concordance.Literal

/-!
# Kinds of nodes

A definition is a tree of typed nodes: a root over definition sets, conjunctions
and disjunctions, restrictions of roles, and leaves that name a concept or hold
a literal. The kind of a node carries its payload and fixes how many children
the node may have.
-/
namespace Concordance

/-- Key of a concept or of a role. Content is compared by keys, never by names. -/
abbrev Key := Int32

/-- How many children a kind of node admits. -/
inductive Arity
  | leaf
  | single
  | atLeastOne
deriving DecidableEq

/-- Whether a number of children satisfies an arity. -/
def Arity.admits : Arity → Nat → Bool
  | .leaf, count => count == 0
  | .single, count => count == 1
  | .atLeastOne, count => 1 ≤ count

/-- Kind of a node, with its payload. -/
inductive Kind
  /-- Top of a definition; its children are definition sets. -/
  | root
  /-- Conditions that every instance of the concept meets. -/
  | necessarySet
  /-- Conditions that make an instance of the concept. -/
  | sufficientSet
  /-- Definition of a property. -/
  | propertySet
  | conjunction
  | disjunction
  /-- States that the children are disjoint from the concept. -/
  | disjointWith
  /-- Existential restriction of a role. -/
  | existential (role : Key)
  /-- Universal restriction of a role. -/
  | universal (role : Key)
  /-- Reference to a concept. -/
  | concept (key : Key)
  | literal (value : Literal)
deriving DecidableEq

namespace Kind

def name : Kind → String
  | .root => "Root"
  | .necessarySet => "Necessary set"
  | .sufficientSet => "Sufficient set"
  | .propertySet => "Property set"
  | .conjunction => "And"
  | .disjunction => "Or"
  | .disjointWith => "Disjoint with"
  | .existential _ => "Some"
  | .universal _ => "All"
  | .concept _ => "Concept"
  | .literal _ => "Literal"

def arity : Kind → Arity
  | .root | .conjunction | .disjunction | .disjointWith => .atLeastOne
  | .necessarySet | .sufficientSet | .propertySet | .existential _ | .universal _ => .single
  | .concept _ | .literal _ => .leaf

def isRole : Kind → Bool
  | .existential _ | .universal _ => true
  | _ => false

def isSet : Kind → Bool
  | .necessarySet | .sufficientSet | .propertySet => true
  | _ => false

/-- Whether nodes of a kind have no children. -/
def isLeaf (k : Kind) : Bool :=
  k.arity == .leaf

def role? : Kind → Option Key
  | .existential role | .universal role => some role
  | _ => none

def concept? : Kind → Option Key
  | .concept key => some key
  | _ => none

def display (k : Kind) : String :=
  match k with
  | .existential role | .universal role => k.name ++ " role " ++ toString role.toInt
  | .concept key => k.name ++ " " ++ toString key.toInt
  | .literal value => k.name ++ " " ++ value.display
  | _ => k.name

end Kind
end Concordance
