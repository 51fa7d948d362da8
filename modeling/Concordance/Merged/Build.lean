import Concordance.Merged

/-!
# Building merged expressions

First every node gets its origin, whose position is the merged index. Then the
children of all nodes are joined, and last the nodes with too many children are
given a conjunction.

Merged indices are positions of 32 bits. They are natural numbers here that do not
wrap around, so what is said about a merged graph is meant for one with fewer nodes
than there are indices, its conjunctions included.
-/
namespace Concordance.Merged

/-- What is merged: two expressions, their signature tables and a mapping between them. -/
structure Input where
  reference : Expression
  comparison : Expression
  referenceTable : SignatureTable
  comparisonTable : SignatureTable
  mapping : Mapping

namespace Input

variable (i : Input)

/-- Origin of a reference node. A partner that the comparison expression does not have counts for
nothing. -/
def referenceOrigin (r : Nat) : Origin :=
  match i.mapping.correspondence? r with
  | none => .reference r
  | some found =>
    if (i.comparison.kind? found.comparison).isSome then .shared r found.comparison found.quality
    else .reference r

def referenceOrigins : List Origin :=
  i.reference.postOrder.map i.referenceOrigin

/-- Origins of the comparison nodes that are in no pair, in post-order. -/
def comparisonOrigins : List Origin :=
  let paired := i.referenceOrigins.filterMap Origin.comparison?
  (i.comparison.postOrder.filter fun c => !paired.contains c).map Origin.comparison

/-- Origins of all nodes but the synthetic ones, by merged index. -/
def origins : List Origin :=
  i.referenceOrigins ++ i.comparisonOrigins

/-- Table of the positions at which nodes occur in a list of origins. -/
def indexTable (size : Nat) (node? : Origin → Option Nat) (origins : List Origin) :
    Array (Option Nat) :=
  origins.zipIdx.foldl
    (fun table entry =>
      match node? entry.1 with
      | none => table
      | some n => table.setIfInBounds n (some entry.2))
    (Array.replicate size none)

def referenceIndex : Array (Option Nat) :=
  indexTable i.reference.size Origin.reference? i.origins

def comparisonIndex : Array (Option Nat) :=
  indexTable i.comparison.size Origin.comparison? i.origins

def kind? (o : Origin) : Option Kind :=
  match o with
  | .shared r _ _ | .reference r => i.reference.kind? r
  | .comparison c => i.comparison.kind? c
  | .synthetic => some .conjunction

end Input

/-- Elements of the second list that are not in the first one, behind it and without repetition. -/
def union (xs ys : List Nat) : List Nat :=
  ys.foldl (fun xs y => if y ∈ xs then xs else xs ++ [y]) xs

/-- Merged indices of a list of nodes. -/
def indicesOf (table : Array (Option Nat)) (nodes : List Nat) : List Nat :=
  nodes.filterMap fun n => table[n]?.getD none

/-- Both expressions with the tables of their merged indices. -/
structure Numbered where
  input : Input
  referenceIndex : Array (Option Nat)
  comparisonIndex : Array (Option Nat)

def Input.numbered (i : Input) : Numbered :=
  ⟨i, i.referenceIndex, i.comparisonIndex⟩

namespace Numbered

variable (s : Numbered)

/-- Children of a merged node before any conjunction is put in: those of its reference node, then
the further ones of its comparison node. A reference or comparison node that has its merged index
elsewhere gives no children here. -/
def joinedChildren (index : Nat) (o : Origin) : List Nat :=
  let ofReference :=
    match o.reference? with
    | some r =>
      if s.referenceIndex[r]?.getD none = some index then
        indicesOf s.referenceIndex (s.input.reference.children r)
      else []
    | none => []
  match o.comparison? with
  | some c =>
    if s.comparisonIndex[c]?.getD none = some index then
      union ofReference (indicesOf s.comparisonIndex (s.input.comparison.children c))
    else ofReference
  | none => ofReference

/-- Merged node of an origin before any conjunction is put in. -/
def joinedNode (index : Nat) (o : Origin) : MergedNode where
  index := index
  kind := (s.input.kind? o).getD .conjunction
  children := s.joinedChildren index o
  origin := o
  referenceSignature := o.reference?.bind s.input.referenceTable.get?
  comparisonSignature := o.comparison?.bind s.input.comparisonTable.get?

/-- All merged nodes before any conjunction is put in. -/
def joinedNodes : List MergedNode :=
  s.input.origins.zipIdx.map fun entry => s.joinedNode entry.2 entry.1

end Numbered

/-- Whether a node has more children than its kind admits. -/
def isOverfull (n : MergedNode) : Bool :=
  n.kind.arity == .single && 1 < n.children.length

/-- The conjunction that holds the children of an overfull node. -/
def conjunctionOf (index : Nat) (owner : MergedNode) : MergedNode where
  index := index
  kind := .conjunction
  children := owner.children
  origin := .synthetic
  referenceSignature := none
  comparisonSignature := none

/-- Gives every overfull node a conjunction over its children; conjunctions are numbered from
`next` on, in the order of their owners. -/
def conjoin (next : Nat) : List MergedNode → List MergedNode × List MergedNode
  | [] => ([], [])
  | n :: ns =>
    if isOverfull n then
      let (owners, conjunctions) := conjoin (next + 1) ns
      ({ n with children := [next] } :: owners, conjunctionOf next n :: conjunctions)
    else
      let (owners, conjunctions) := conjoin next ns
      (n :: owners, conjunctions)

/-- The merged expression of two matched expressions. -/
def build (i : Input) : Merged :=
  let s := i.numbered
  let joined := s.joinedNodes
  let (owners, conjunctions) := conjoin joined.length joined
  { nodes := .ofList (owners ++ conjunctions)
    root := (s.referenceIndex[i.reference.root]?.getD none).getD 0
    referenceIndex := s.referenceIndex
    comparisonIndex := s.comparisonIndex }

end Concordance.Merged
