import Concordance.Merged

/-!
# Differences

The difference of two merged expressions lists the content that both share and
the content that only one of them has. The merged graph is walked from its root.
The walk ends at every node that is reported: a reported node stands for
everything below it.
-/
namespace Concordance

/-- A subtree that is on one side only. -/
structure OneSided where
  merged : Nat
  side : Side
  /-- The top of the subtree in its own expression. -/
  origin : Nat
  kind : Kind
  signature : Signature
deriving DecidableEq

/-- A subtree that is on both sides with the same content. -/
structure SharedSubtree where
  merged : Nat
  reference : Nat
  comparison : Nat
  kind : Kind
  signature : Signature
deriving DecidableEq

/-- What two expressions share and what only one of them has. -/
structure Difference where
  /-- Outermost shared role restrictions, one for each signature. -/
  sharedRoots : List SharedSubtree
  /-- Shared leaves outside of shared role restrictions. -/
  sharedAssertions : List SharedSubtree
  /-- Subtrees that only the comparison has. -/
  additions : List OneSided
  /-- Subtrees that only the reference has. -/
  deletions : List OneSided
deriving DecidableEq

namespace Difference

def isUnchanged (d : Difference) : Bool :=
  d.additions.isEmpty && d.deletions.isEmpty

def additionOrigins (d : Difference) : List Nat :=
  d.additions.map (·.origin)

def deletionOrigins (d : Difference) : List Nat :=
  d.deletions.map (·.origin)

/-- Whether the walk goes on below a node: it stops at one-sided nodes, at roles and at leaves. -/
def descends (n : MergedNode) : Bool :=
  match n.origin with
  | .shared .. => !(n.kind.isRole || n.kind.isLeaf)
  | .synthetic => true
  | .reference _ | .comparison _ => false

/-- A merged graph cut off below the nodes at which the walk stops. -/
def walk (m : Merged) : Graph where
  root := m.root
  size := m.size
  kind? := m.graph.kind?
  children n :=
    match m.nodes.get? n with
    | none => []
    | some node => if descends node then node.children else []

/-- Merged nodes in the order of the walk. -/
def visited (m : Merged) : List MergedNode :=
  (walk m).preOrder.filterMap m.nodes.get?

/-- Whether a pair has the same content on both sides. -/
def hasSameContent (mapping : Mapping) (n : MergedNode) (r c : Nat) : Bool :=
  n.referenceSignature.isSome &&
    (mapping.correspondence? r = some ⟨c, .exact⟩ || n.comparisonSignature = n.referenceSignature)

/-- The shared subtree below a role or a leaf with the same content on both sides. -/
def shared? (mapping : Mapping) (n : MergedNode) : Option SharedSubtree :=
  match n.origin with
  | .shared r c _ =>
    if !descends n && hasSameContent mapping n r c then
      n.referenceSignature.map fun signature => ⟨n.index, r, c, n.kind, signature⟩
    else none
  | _ => none

/-- The reference subtree of a node at which the walk stops without finding shared content. -/
def deletion? (mapping : Mapping) (n : MergedNode) : Option OneSided :=
  let report (r : Nat) :=
    n.referenceSignature.map fun signature => ⟨n.index, .reference, r, n.kind, signature⟩
  match n.origin with
  | .reference r => report r
  | .shared r c _ => if descends n || hasSameContent mapping n r c then none else report r
  | _ => none

/-- The comparison subtree of a node at which the walk stops without finding shared content. -/
def addition? (mapping : Mapping) (n : MergedNode) : Option OneSided :=
  let report (c : Nat) :=
    n.comparisonSignature.map fun signature => ⟨n.index, .comparison, c, n.kind, signature⟩
  match n.origin with
  | .comparison c => report c
  | .shared r c _ => if descends n || hasSameContent mapping n r c then none else report c
  | _ => none

/-- Keeps the first subtree of every signature. -/
def firstOfEach (subtrees : List SharedSubtree) : List SharedSubtree :=
  subtrees.foldl
    (fun kept s => if kept.any (·.signature = s.signature) then kept else kept ++ [s]) []

def ofMerged (m : Merged) (mapping : Mapping) : Difference :=
  let nodes := visited m
  let shared := nodes.filterMap (shared? mapping)
  { sharedRoots := firstOfEach (shared.filter fun s => !s.kind.isLeaf)
    sharedAssertions := shared.filter fun s => s.kind.isLeaf
    additions := nodes.filterMap (addition? mapping)
    deletions := nodes.filterMap (deletion? mapping) }

def event (d : Difference) : Event :=
  .classified d.sharedRoots.length d.sharedAssertions.length d.additions.length d.deletions.length

end Difference
end Concordance
