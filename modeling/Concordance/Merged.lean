import Concordance.Event
import Concordance.Signature.Table

/-!
# Merged expressions

Two matched expressions are merged into one graph: every pair becomes one node,
every unmatched node a node of its own. Merged nodes are numbered in a fixed
order: reference nodes in post-order, then unmatched comparison nodes in
post-order, then synthetic conjunctions in the order of their owners.

The children of a merged node are the merged children of its reference node,
followed by those of its comparison node that are not among them already. A node
that admits one child only but would get several is given a synthetic
conjunction over them instead. A pair can have a parent on either side, so the
result is a rooted graph and not a tree.
-/
namespace Concordance

/-- Where a merged node comes from. -/
inductive Origin
  | shared (reference comparison : Nat) (quality : Quality)
  | reference (node : Nat)
  | comparison (node : Nat)
  | synthetic
deriving DecidableEq

namespace Origin

def reference? : Origin → Option Nat
  | .shared r _ _ | .reference r => some r
  | _ => none

def comparison? : Origin → Option Nat
  | .shared _ c _ | .comparison c => some c
  | _ => none

def isShared : Origin → Bool
  | .shared .. => true
  | _ => false

end Origin

/-- One node of a merged expression. -/
structure MergedNode where
  index : Nat
  kind : Kind
  children : List Nat
  origin : Origin
  /-- Signature of the reference node, if there is one. -/
  referenceSignature : Option Signature
  /-- Signature of the comparison node, if there is one. -/
  comparisonSignature : Option Signature
deriving DecidableEq

def MergedNode.signature? (n : MergedNode) : Option Signature :=
  n.referenceSignature <|> n.comparisonSignature

/-- The graph of two matched expressions. -/
structure Merged where
  nodes : Arena MergedNode
  root : Nat
  /-- Merged index of every reference node. -/
  referenceIndex : Array (Option Nat)
  comparisonIndex : Array (Option Nat)
deriving DecidableEq

namespace Merged

def size (m : Merged) : Nat :=
  m.nodes.size

def graph (m : Merged) : Graph where
  root := m.root
  size := m.size
  kind? n := (m.nodes.get? n).map (·.kind)
  children n := ((m.nodes.get? n).map (·.children)).getD []

def ofReference? (m : Merged) (r : Nat) : Option Nat :=
  m.referenceIndex[r]?.getD none

def ofComparison? (m : Merged) (c : Nat) : Option Nat :=
  m.comparisonIndex[c]?.getD none

/-- A table of indices as pairs, ascending. -/
def indexPairs (table : Array (Option Nat)) : List (Nat × Nat) :=
  (List.range table.size).filterMap fun n => (table[n]?.getD none).map (n, ·)

def referenceToMerged (m : Merged) : List (Nat × Nat) :=
  indexPairs m.referenceIndex

def comparisonToMerged (m : Merged) : List (Nat × Nat) :=
  indexPairs m.comparisonIndex

/-- Merged parents of a node, ascending. -/
def parents (m : Merged) (index : Nat) : List Nat :=
  m.nodes.entries.filterMap fun entry =>
    if index ∈ entry.2.children then some entry.1 else none

def syntheticCount (m : Merged) : Nat :=
  m.nodes.toList.countP fun n => n.origin = .synthetic

def event (m : Merged) : Event :=
  .merged m.size m.syntheticCount

end Merged
end Concordance
