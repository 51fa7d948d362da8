import Concordance.Difference
import Concordance.Graph.Outline
import Concordance.Render.Label

/-!
# Text dumps

A graph is dumped as its outline, one entry a line and two spaces for each level
of depth; a mapping as one line for each pair; a difference in four sections.
-/
namespace Concordance

namespace Graph

/-- What stands behind the number of a node in a dump. -/
def Listing.text (namer : Namer) (note : String) : Listing → String
  | .full kind => namer.label kind ++ note
  | .repeated => "^"
  | .missing => "<missing>"

/-- One line of a dump. -/
def Entry.line (namer : Namer) (annotate : Nat → String) (e : Entry) : String :=
  String.ofList (List.replicate (2 * e.depth) ' ') ++ indexText e.node ++ " "
    ++ e.listing.text namer (annotate e.node) ++ "\n"

/-- A dump of a graph, with a note behind every node that is listed in full. -/
def dumpWith (g : Graph) (namer : Namer) (annotate : Nat → String) : String :=
  String.join (g.outline.map (Entry.line namer annotate))

def dump (g : Graph) (namer : Namer) : String :=
  g.dumpWith namer fun _ => ""

end Graph

def pairText (r c : Nat) : String :=
  indexText r ++ "↔" ++ indexText c

/-- How an origin is noted behind a merged node. -/
def Origin.note : Origin → String
  | .shared r c q => "  " ++ pairText r c ++ q.mark
  | .reference r => "  -" ++ indexText r
  | .comparison c => "  +" ++ indexText c
  | .synthetic => "  (synthetic)"

/-- A dump of a merged expression with the origin of every node. -/
def Merged.dump (m : Merged) (namer : Namer) : String :=
  m.graph.dumpWith namer fun n =>
    match m.nodes.get? n with
    | none => ""
    | some node => node.origin.note

/-- The label of a node, empty for a number out of range. -/
def Expression.label (e : Expression) (namer : Namer) (n : Nat) : String :=
  match e.kind? n with
  | none => ""
  | some kind => namer.label kind

def Mapping.dump (m : Mapping) (reference comparison : Expression) (namer : Namer) : String :=
  String.join (m.pairs.map fun pair =>
    indexText pair.1 ++ " " ++ reference.label namer pair.1 ++ " -> "
      ++ indexText pair.2.comparison ++ " " ++ comparison.label namer pair.2.comparison
      ++ pair.2.quality.mark ++ "\n")

def Side.name : Side → String
  | .reference => "Reference"
  | .comparison => "Comparison"

def SharedSubtree.line (namer : Namer) (s : SharedSubtree) : String :=
  "  " ++ indexText s.merged ++ " " ++ namer.label s.kind ++ "  "
    ++ pairText s.reference s.comparison ++ "\n"

def OneSided.line (namer : Namer) (s : OneSided) : String :=
  "  " ++ indexText s.merged ++ " " ++ namer.label s.kind ++ "  " ++ s.side.name ++ " "
    ++ indexText s.origin ++ " " ++ Signature.display s.signature ++ "\n"

/-- A section of lines below its title and their number. -/
def listing (title : String) (lines : List String) : String :=
  title ++ " (" ++ toString lines.length ++ "):\n" ++ String.join lines

def Difference.dump (d : Difference) (namer : Namer) : String :=
  listing "shared roots" (d.sharedRoots.map (SharedSubtree.line namer))
    ++ listing "shared assertions" (d.sharedAssertions.map (SharedSubtree.line namer))
    ++ listing "additions" (d.additions.map (OneSided.line namer))
    ++ listing "deletions" (d.deletions.map (OneSided.line namer))

end Concordance
