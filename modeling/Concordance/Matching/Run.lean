import Concordance.Matching.Passes

/-!
# Runs of the matching

All passes one after another, with a count in the log after each of them. A run
has an outcome only if no signature was missing.
-/
namespace Concordance.Matching

variable (p : Problem)

/-- The anchors and what follows from them. -/
def afterAnchors : State :=
  let s := anchorPass p (.initial p)
  s.note (.anchored s.mapping.size)

/-- All exact pairs. -/
def afterSignatures : State :=
  let s := signaturePass p (afterAnchors p)
  s.note (.disambiguated s.mapping.size)

/-- The pairs made by overlap as well, if the settings ask for them. -/
def afterOverlap : State :=
  if p.config.bestEffort then
    let s := overlapPass p (afterSignatures p)
    s.note (.bestEffortDone s.mapping.approximateCount)
  else afterSignatures p

def run : State :=
  let s := spinePass p (afterOverlap p)
  let m := s.mapping
  s.note (.finished m.exactCount m.approximateCount (m.referenceSize - m.size)
    (m.comparisonSize - m.size))

/-- The mapping of a run and its log, or the first signature that was missing. -/
def outcome : Except Gap (Mapping × List Event) :=
  let s := run p
  match s.gap with
  | some gap => .error gap
  | none => .ok (s.mapping, s.log)

end Concordance.Matching

namespace Concordance

/-- The mapping of two expressions by their own signatures. Their tables are complete, so that no
signature is missing. -/
def Mapping.ofExpressions (reference comparison : Expression) (config : Config) : Mapping :=
  (Matching.run (.ofExpressions reference comparison config)).mapping

end Concordance
