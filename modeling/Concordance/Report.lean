import Concordance.Correlation

/-!
# Reports

A report is a snapshot of a correlation that can be kept: the sizes and
signatures of both expressions, all pairs, the merged nodes and the difference.
-/
namespace Concordance

/-- One pair of a report. -/
structure ReportPair where
  reference : Nat
  comparison : Nat
  quality : Quality
deriving DecidableEq

/-- Snapshot of a correlation. -/
structure Report where
  referenceSize : Nat
  comparisonSize : Nat
  referenceSignature : Signature
  comparisonSignature : Signature
  /-- All pairs by ascending reference node. -/
  pairs : List ReportPair
  mergedRoot : Nat
  /-- All merged nodes, ascending. -/
  merged : List MergedNode
  difference : Difference
deriving DecidableEq

/-- The report of a correlation. -/
def Report.ofCorrelation (c : Correlation) : Report where
  referenceSize := c.mapping.referenceSize
  comparisonSize := c.mapping.comparisonSize
  referenceSignature := c.referenceTable.rootSignature
  comparisonSignature := c.comparisonTable.rootSignature
  pairs := c.mapping.pairs.map fun pair => ⟨pair.1, pair.2.comparison, pair.2.quality⟩
  mergedRoot := c.merged.root
  merged := c.merged.nodes.toList
  difference := c.difference

end Concordance
