import Concordance.Config
import Concordance.Expression.Layout
import Concordance.Mapping
import Concordance.Signature.Table

/-!
# The matching problem

Everything that stays fixed while two expressions are matched: the expressions,
their signature tables and layouts, the order in which parents are checked, and
the settings. The tables are given from outside and need not belong to the
expressions.
-/
namespace Concordance.Matching

/-- Safeguards of the matching; both are on unless a problem states otherwise. -/
structure Safeguards where
  /-- Check the parent of every new pair for being an exact pair itself. -/
  checkParents : Bool := true
  /-- Refuse pairs that turn an ancestor into a descendant. -/
  refuseInversions : Bool := true
deriving DecidableEq

/-- Two expressions to be matched. -/
structure Problem where
  reference : Expression
  comparison : Expression
  referenceTable : SignatureTable
  comparisonTable : SignatureTable
  referenceLayout : Layout
  comparisonLayout : Layout
  /-- Post-order position of every reference node. -/
  ranks : Array Nat
  config : Config
  safeguards : Safeguards

namespace Problem

/-- The problem of matching two expressions by given signature tables. -/
def ofTables (reference comparison : Expression)
    (referenceTable comparisonTable : SignatureTable) (config : Config) : Problem where
  reference := reference
  comparison := comparison
  referenceTable := referenceTable
  comparisonTable := comparisonTable
  referenceLayout := .ofExpression reference
  comparisonLayout := .ofExpression comparison
  ranks := Layout.positions reference.size reference.postOrder
  config := config
  safeguards := {}

def ofExpressions (reference comparison : Expression) (config : Config) : Problem :=
  ofTables reference comparison (.ofExpression reference) (.ofExpression comparison) config

variable (p : Problem)

def kindsAgree (r c : Nat) : Bool :=
  p.reference.kind? r == p.comparison.kind? c

def signaturesAgree (r c : Nat) : Bool :=
  p.referenceTable.get? r == p.comparisonTable.get? c

/-- Whether an ancestor of the reference node is paired with a descendant of the comparison node,
or a descendant of the reference node with an ancestor of the comparison node. -/
def inverts (m : Mapping) (r c : Nat) : Bool :=
  ((p.reference.ancestors r).filterMap m.comparisonFor?).any (p.comparisonLayout.encloses c) ||
    ((p.comparison.ancestors c).filterMap m.referenceFor?).any (p.referenceLayout.encloses r)

/-- Whether a pair may be added to a mapping as far as kinds and ancestors are concerned. -/
def admits (m : Mapping) (r c : Nat) : Bool :=
  p.kindsAgree r c && !(p.safeguards.refuseInversions && p.inverts m r c)

/-- Order of reference nodes by descending subtree size, then by number. -/
def largerFirst (a b : Nat) : Bool :=
  let sizeA := p.referenceTable.subtreeSize a
  let sizeB := p.referenceTable.subtreeSize b
  decide (sizeB < sizeA) || (sizeA == sizeB && decide (a ≤ b))

/-- The partner of a reference node whose signature occurs once on either side. -/
def anchor? (r : Nat) : Option (Nat × Nat) :=
  match p.referenceTable.get? r with
  | none => none
  | some s =>
    match p.referenceTable.nodesWith s, p.comparisonTable.nodesWith s with
    | [_], [c] => some (r, c)
    | _, _ => none

/-- Pairs of nodes whose signature occurs once on either side, larger subtrees first. -/
def anchors : List (Nat × Nat) :=
  (sortBy p.largerFirst (List.range p.referenceTable.size)).filterMap p.anchor?

def largestFirst : List Nat :=
  sortBy p.largerFirst (List.range p.reference.size)

end Problem
end Concordance.Matching
