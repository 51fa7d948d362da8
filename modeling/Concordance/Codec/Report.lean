import Concordance.Cbor.Encoding
import Concordance.Codec.Kind
import Concordance.Codec.Mapping
import Concordance.Report

/-!
# Reports as CBOR

A report and its parts as records, and the bytes and the fingerprint of a whole
report.
-/
namespace Concordance

open Cbor (Item)

namespace Origin

def variantNames : List String :=
  ["Shared", "Reference", "Comparison", "Synthetic"]

def toItem : Origin → Item
  | .shared r c q =>
    .variant "Shared" (.record
      [("reference", .unsigned r), ("comparison", .unsigned c), ("quality", q.toItem)])
  | .reference node => .variant "Reference" (.unsigned node)
  | .comparison node => .variant "Comparison" (.unsigned node)
  | .synthetic => .text "Synthetic"

def ofItem? (i : Item) : Option Origin := do
  let (position, value) ← i.variant? variantNames
  match position with
  | 0 =>
    match ← (← value).fields? ["reference", "comparison", "quality"] with
    | [r, c, q] =>
      return .shared (← Item.required? Item.index? r) (← Item.required? Item.index? c)
        (← Item.required? Quality.ofItem? q)
    | _ => none
  | 1 => return .reference (← (← value).index?)
  | 2 => return .comparison (← (← value).index?)
  | _ =>
    Item.unit? value
    return .synthetic

end Origin

namespace MergedNode

def toItem (n : MergedNode) : Item :=
  .record
    [("index", .unsigned n.index), ("kind", n.kind.toItem),
     ("children", .ofList Item.unsigned n.children), ("origin", n.origin.toItem),
     ("reference_signature", .ofOption Digest.toItem n.referenceSignature),
     ("comparison_signature", .ofOption Digest.toItem n.comparisonSignature)]

def ofItem? (i : Item) : Option MergedNode := do
  match ← i.fields? ["index", "kind", "children", "origin", "reference_signature",
      "comparison_signature"] with
  | [index, kind, children, origin, referenceSignature, comparisonSignature] =>
    return { index := ← Item.required? Item.index? index
             kind := ← Item.required? Kind.ofItem? kind
             children := ← Item.required? (Item.list? Item.index?) children
             origin := ← Item.required? Origin.ofItem? origin
             referenceSignature := ← Item.optional? Digest.ofItem? referenceSignature
             comparisonSignature := ← Item.optional? Digest.ofItem? comparisonSignature }
  | _ => none

end MergedNode

def Side.toItem : Side → Item
  | .reference => .text "Reference"
  | .comparison => .text "Comparison"

def Side.ofItem? (i : Item) : Option Side :=
  i.unitVariant? [("Reference", .reference), ("Comparison", .comparison)]

def OneSided.toItem (s : OneSided) : Item :=
  .record
    [("merged", .unsigned s.merged), ("side", s.side.toItem), ("origin", .unsigned s.origin),
     ("kind", s.kind.toItem), ("signature", s.signature.toItem)]

def OneSided.ofItem? (i : Item) : Option OneSided := do
  match ← i.fields? ["merged", "side", "origin", "kind", "signature"] with
  | [merged, side, origin, kind, signature] =>
    return { merged := ← Item.required? Item.index? merged
             side := ← Item.required? Side.ofItem? side
             origin := ← Item.required? Item.index? origin
             kind := ← Item.required? Kind.ofItem? kind
             signature := ← Item.required? Digest.ofItem? signature }
  | _ => none

def SharedSubtree.toItem (s : SharedSubtree) : Item :=
  .record
    [("merged", .unsigned s.merged), ("reference", .unsigned s.reference),
     ("comparison", .unsigned s.comparison), ("kind", s.kind.toItem),
     ("signature", s.signature.toItem)]

def SharedSubtree.ofItem? (i : Item) : Option SharedSubtree := do
  match ← i.fields? ["merged", "reference", "comparison", "kind", "signature"] with
  | [merged, reference, comparison, kind, signature] =>
    return { merged := ← Item.required? Item.index? merged
             reference := ← Item.required? Item.index? reference
             comparison := ← Item.required? Item.index? comparison
             kind := ← Item.required? Kind.ofItem? kind
             signature := ← Item.required? Digest.ofItem? signature }
  | _ => none

namespace Difference

def toItem (d : Difference) : Item :=
  .record
    [("shared_roots", .ofList SharedSubtree.toItem d.sharedRoots),
     ("shared_assertions", .ofList SharedSubtree.toItem d.sharedAssertions),
     ("additions", .ofList OneSided.toItem d.additions),
     ("deletions", .ofList OneSided.toItem d.deletions)]

def ofItem? (i : Item) : Option Difference := do
  match ← i.fields? ["shared_roots", "shared_assertions", "additions", "deletions"] with
  | [sharedRoots, sharedAssertions, additions, deletions] =>
    return { sharedRoots := ← Item.required? (Item.list? SharedSubtree.ofItem?) sharedRoots
             sharedAssertions :=
               ← Item.required? (Item.list? SharedSubtree.ofItem?) sharedAssertions
             additions := ← Item.required? (Item.list? OneSided.ofItem?) additions
             deletions := ← Item.required? (Item.list? OneSided.ofItem?) deletions }
  | _ => none

end Difference

def ReportPair.toItem (p : ReportPair) : Item :=
  .record
    [("reference", .unsigned p.reference), ("comparison", .unsigned p.comparison),
     ("quality", p.quality.toItem)]

def ReportPair.ofItem? (i : Item) : Option ReportPair := do
  match ← i.fields? ["reference", "comparison", "quality"] with
  | [reference, comparison, quality] =>
    return { reference := ← Item.required? Item.index? reference
             comparison := ← Item.required? Item.index? comparison
             quality := ← Item.required? Quality.ofItem? quality }
  | _ => none

namespace Report

def toItem (r : Report) : Item :=
  .record
    [("reference_len", .unsigned r.referenceSize), ("comparison_len", .unsigned r.comparisonSize),
     ("reference_signature", r.referenceSignature.toItem),
     ("comparison_signature", r.comparisonSignature.toItem),
     ("pairs", .ofList ReportPair.toItem r.pairs), ("merged_root", .unsigned r.mergedRoot),
     ("merged", .ofList MergedNode.toItem r.merged), ("diff", r.difference.toItem)]

def ofItem? (i : Item) : Option Report := do
  match ← i.fields? ["reference_len", "comparison_len", "reference_signature",
      "comparison_signature", "pairs", "merged_root", "merged", "diff"] with
  | [referenceSize, comparisonSize, referenceSignature, comparisonSignature, pairs, mergedRoot,
      merged, difference] =>
    return { referenceSize := ← Item.required? Item.size? referenceSize
             comparisonSize := ← Item.required? Item.size? comparisonSize
             referenceSignature := ← Item.required? Digest.ofItem? referenceSignature
             comparisonSignature := ← Item.required? Digest.ofItem? comparisonSignature
             pairs := ← Item.required? (Item.list? ReportPair.ofItem?) pairs
             mergedRoot := ← Item.required? Item.index? mergedRoot
             merged := ← Item.required? (Item.list? MergedNode.ofItem?) merged
             difference := ← Item.required? Difference.ofItem? difference }
  | _ => none

/-- The bytes of a report. -/
def toCbor (r : Report) : List UInt8 :=
  Cbor.encode r.toItem

/-- The report of a list of bytes. -/
def ofCbor? (bytes : List UInt8) : Option Report :=
  (Cbor.decode? bytes).bind ofItem?

/-- The domain in which reports are hashed. -/
def domain : List UInt8 :=
  Digest.utf8 "CORRELATION_REPORT_V0"

/-- The digest of the bytes of a report. -/
def fingerprint (r : Report) : Digest :=
  .ofDomain domain r.toCbor

end Report
end Concordance
