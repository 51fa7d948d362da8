import Concordance.Difference
import Concordance.Matching.Run
import Concordance.Merged.Build

/-!
# Correlations

A correlation of two expressions holds everything that is found about them: the
signatures of both, the mapping between them, the merged expression and the
difference, with index maps between the three kinds of nodes and a log of how
the result came about.
-/
namespace Concordance

/-- A correlator has settings that make sense. -/
structure Correlator where
  config : Config
  valid : config.validate = .ok ()

namespace Correlator

def ofConfig (config : Config) : Except ConfigError Correlator :=
  match valid : config.validate with
  | .error e => .error e
  | .ok () => .ok ⟨config, valid⟩

def default : Correlator :=
  ⟨{}, rfl⟩

end Correlator

/-- Everything that is found about two expressions. -/
structure Correlation where
  referenceTable : SignatureTable
  comparisonTable : SignatureTable
  mapping : Mapping
  merged : Merged
  difference : Difference
  log : List Event

namespace Correlation

/-- The correlation of two expressions under given settings. -/
def ofExpressions (reference comparison : Expression) (config : Config) : Correlation :=
  let problem := Matching.Problem.ofExpressions reference comparison config
  let matched := Matching.run problem
  let merged := Merged.build
    ⟨reference, comparison, problem.referenceTable, problem.comparisonTable, matched.mapping⟩
  let difference := Difference.ofMerged merged matched.mapping
  { referenceTable := problem.referenceTable
    comparisonTable := problem.comparisonTable
    mapping := matched.mapping
    merged := merged
    difference := difference
    log := .started reference.size comparison.size :: matched.log
      ++ [merged.event, difference.event] }

variable (c : Correlation)

def referenceToComparison? (r : Nat) : Option Nat :=
  c.mapping.comparisonFor? r

def comparisonToReference? (n : Nat) : Option Nat :=
  c.mapping.referenceFor? n

def referenceToMerged? (r : Nat) : Option Nat :=
  c.merged.ofReference? r

def comparisonToMerged? (n : Nat) : Option Nat :=
  c.merged.ofComparison? n

def mergedToReference? (m : Nat) : Option Nat :=
  (c.merged.nodes.get? m).bind (·.origin.reference?)

def mergedToComparison? (m : Nat) : Option Nat :=
  (c.merged.nodes.get? m).bind (·.origin.comparison?)

end Correlation

def Correlator.correlate (k : Correlator) (reference comparison : Expression) : Correlation :=
  .ofExpressions reference comparison k.config

end Concordance
