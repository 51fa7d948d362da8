import Concordance.Matching.Propagation

/-!
# Passes of the matching

The matching goes over the expressions four times. Anchors pair nodes whose
signature is unique on both sides; the second pass pairs what is left by
signature, smallest comparison node first; the third pairs interior nodes of one
kind and depth by the number of children that are partners already; the last
connects the roots and the definition sets. New pairs are propagated before the
next node is looked at.
-/
namespace Concordance.Matching

variable (p : Problem)

/-- Pairs an anchor whose nodes are both unmatched. -/
def anchorPair (s : State) (anchor : Nat × Nat) : State :=
  if s.mapping.hasReference anchor.1 || s.mapping.hasComparison anchor.2 then s
  else
    match s.pair? p anchor.1 anchor.2 .exact with
    | none => s
    | some s' => settle p s'

/-- Pairs all anchors, larger subtrees first. -/
def anchorPass (s : State) : State :=
  p.anchors.foldl (anchorPair p) s

/-- Notes that several comparison nodes are free for one reference node. -/
def noteChoice (s : State) (r : Nat) (free : List Nat) : State :=
  match free with
  | c :: _ :: _ => s.note (.ambiguous r free.length c)
  | _ => s

/-- Pairs a reference node with the first free comparison node of its signature that is accepted. -/
def pairBySignature (s : State) (r : Nat) : State :=
  if s.mapping.hasReference r then s
  else
    let s := s.ask .reference p.referenceTable [r]
    match p.referenceTable.get? r with
    | none => s
    | some signature =>
      let free := (p.comparisonTable.nodesWith signature).filter
        fun c => !s.mapping.hasComparison c
      let s := noteChoice s r free
      match free.findSome? fun c => s.pair? p r c .exact with
      | none => s
      | some s' => settle p s'

/-- Pairs the remaining reference nodes by signature, larger subtrees first. -/
def signaturePass (s : State) : State :=
  p.largestFirst.foldl (pairBySignature p) s

/-- Unmatched comparison nodes of the kind and depth of a reference node that have the partner of
one of its children as a child; each stands once for every such child. -/
def overlaps (m : Mapping) (r : Nat) : List Nat :=
  (p.reference.children r).filterMap fun child => do
    let partner ← m.comparisonFor? child
    let candidate ← p.comparison.parent? partner
    if !m.hasComparison candidate && p.kindsAgree r candidate
        && p.comparisonLayout.depth candidate == p.referenceLayout.depth r
    then some candidate else none

/-- Candidates with enough overlap, by descending overlap and then by number. -/
def rankedCandidates (m : Mapping) (r : Nat) : List (Nat × Nat) :=
  let found := overlaps p m r
  let scored := found.eraseDups.map fun c => (c, found.count c)
  sortBy (fun a b => decide (b.2 < a.2) || (a.2 == b.2 && decide (a.1 ≤ b.1)))
    (scored.filter fun candidate => p.config.minOverlap ≤ candidate.2)

def isInterior (r : Nat) : Bool :=
  match p.reference.kind? r with
  | none => false
  | some kind => !kind.isLeaf

/-- Pairs an unmatched interior node with the candidate of greatest overlap that is accepted. -/
def pairByOverlap (s : State) (r : Nat) : State :=
  if s.mapping.hasReference r || !isInterior p r then s
  else
    let accepted := (rankedCandidates p s.mapping r).findSome? fun candidate =>
      (s.pair? p r candidate.1 .approximate).map (·, candidate)
    match accepted with
    | none => s
    | some (s', c, overlap) => settle p (s'.note (.overlapped r c overlap))

/-- Pairs interior nodes by overlap, children before parents. -/
def overlapPass (s : State) : State :=
  p.reference.postOrder.foldl (pairByOverlap p) s

def pairRoots (s : State) : State :=
  if s.mapping.hasReference p.reference.root then s
  else s.pair p p.reference.root p.comparison.root .approximate

/-- Unmatched children of the reference root of a kind, ascending. -/
def unmatchedReferenceSets (m : Mapping) (kind : Kind) : List Nat :=
  ascending ((p.reference.children p.reference.root).filter fun r =>
    p.reference.kind? r == some kind && !m.hasReference r)

def unmatchedComparisonSets (m : Mapping) (kind : Kind) : List Nat :=
  ascending ((p.comparison.children p.comparison.root).filter fun c =>
    p.comparison.kind? c == some kind && !m.hasComparison c)

/-- Pairs the unmatched definition sets of a kind below the two roots, in order. -/
def pairSets (s : State) (kind : Kind) : State :=
  ((unmatchedReferenceSets p s.mapping kind).zip (unmatchedComparisonSets p s.mapping kind)).foldl
    (fun s sets => s.pair p sets.1 sets.2 .approximate) s

/-- Definition sets below the reference root, ascending. -/
def referenceSets : List Nat :=
  ascending ((p.reference.children p.reference.root).filter fun r =>
    match p.reference.kind? r with
    | none => false
    | some kind => kind.isSet)

/-- Pairs the children of a definition set and of its partner, if both are unmatched. -/
def connectSet (s : State) (r : Nat) : State :=
  match s.mapping.comparisonFor? r with
  | none => s
  | some c =>
    match (p.reference.children r).head?, (p.comparison.children c).head? with
    | some child, some partner =>
      if s.mapping.hasReference child || s.mapping.hasComparison partner then s
      else s.pair p child partner .approximate
    | _, _ => s

/-- Pairs the roots and the definition sets below them, and on request their children. -/
def spinePass (s : State) : State :=
  let s := pairRoots p s
  let s := [Kind.necessarySet, .sufficientSet, .propertySet].foldl (pairSets p) s
  let s := if p.config.connectSpine then (referenceSets p).foldl (connectSet p) s else s
  settle p s

end Concordance.Matching
