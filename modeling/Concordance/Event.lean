import Concordance.Mapping

/-!
# Events of a correlation

A correlation leaves a log of what it did: every accepted pair in the order in
which it was made, and a count at the end of every step. An event has a level,
a message and named fields.
-/
namespace Concordance

/-- Something that happened during a correlation. -/
inductive Event
  /-- A correlation of expressions of these sizes began. -/
  | started (referenceNodes comparisonNodes : Nat)
  /-- A pair was accepted. -/
  | matched (reference comparison : Nat) (quality : Quality)
  | anchored (matched : Nat)
  /-- A reference node has several free candidates; the chosen one is tried first. -/
  | ambiguous (reference candidates chosen : Nat)
  | disambiguated (matched : Nat)
  /-- A pair was made because of common children. -/
  | overlapped (reference comparison overlap : Nat)
  | bestEffortDone (approximate : Nat)
  | finished (exact approximate unmatchedReference unmatchedComparison : Nat)
  | merged (nodes synthetic : Nat)
  | classified (sharedRoots sharedAssertions additions deletions : Nat)
deriving DecidableEq

namespace Event

/-- How important an event is. -/
inductive Level
  | span
  | debug
  | trace
deriving DecidableEq

def Level.name : Level → String
  | .span => "SPAN"
  | .debug => "DEBUG"
  | .trace => "TRACE"

/-- Value of a field. -/
inductive Value
  | number (value : Nat)
  | word (value : String)
deriving DecidableEq

def level : Event → Level
  | .started .. => .span
  | .matched .. => .trace
  | _ => .debug

def message : Event → String
  | .started .. => "correlate"
  | .matched .. => "matched"
  | .anchored .. => "unique anchoring finished"
  | .ambiguous .. => "ambiguous match"
  | .disambiguated .. => "ambiguous pairing finished"
  | .overlapped .. => "best-effort match"
  | .bestEffortDone .. => "best-effort pass finished"
  | .finished .. => "correlation finished"
  | .merged .. => "merged expression built"
  | .classified .. => "diff classified"

def qualityName : Quality → String
  | .exact => "Exact"
  | .approximate => "Approximate"

def fields : Event → List (String × Value)
  | .started r c => [("reference_nodes", .number r), ("comparison_nodes", .number c)]
  | .matched r c q =>
    [("reference", .number r), ("comparison", .number c), ("quality", .word (qualityName q))]
  | .anchored n => [("matched", .number n)]
  | .ambiguous r n c =>
    [("reference", .number r), ("candidates", .number n), ("chosen", .number c)]
  | .disambiguated n => [("matched", .number n)]
  | .overlapped r c n =>
    [("reference", .number r), ("comparison", .number c), ("overlap", .number n)]
  | .bestEffortDone n => [("approximate", .number n)]
  | .finished e a r c =>
    [("exact", .number e), ("approximate", .number a), ("unmatched_reference", .number r),
     ("unmatched_comparison", .number c)]
  | .merged n s => [("nodes", .number n), ("synthetic", .number s)]
  | .classified r s a d =>
    [("shared_roots", .number r), ("shared_assertions", .number s), ("additions", .number a),
     ("deletions", .number d)]

end Event
end Concordance
