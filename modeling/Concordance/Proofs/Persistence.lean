import Concordance.Codec.Report
import Concordance.Proofs.Cbor.Typed
import Concordance.Proofs.Content
import Mathlib.Tactic.MkIffOfInductiveProp

/-!
# Reports are kept

A report is read back from its own bytes. This goes through its parts from the
inside out: literals and kinds, digests, origins and merged nodes, the entries of
a difference, and at last the report. Every part has a lemma that says what its
item means, and the nesting of the whole stays far below what a reader follows.

Of all that is assumed of the library that reads and writes bytes, a report only
needs what its own bytes go through: records as maps keyed by field names, variants
as text or as a map of one entry, an empty option as a null, a digest as an array
of its bytes, and definite lengths with numbers in their shortest form.

`Fits` says of a part that its positions and sizes have the widths that the
readers of its fields accept, and that the lengths of its texts and lists can be
written.
-/
namespace Concordance

open Cbor (Item Means)

theorem Literal.means {v : Literal} (h : v.Fits) : Means 1 Literal.ofItem? v.toItem v := by
  cases v with
  | boolean value =>
    have hvalue : Means 0 Item.bool? _ _ := .bool value
    exact .variant (by decide) hvalue.readable (by
      simp [ofItem?, Item.variant?_variant, List.idxOf?_cons, hvalue.value])
  | integer value =>
    have hvalue : Means 0 (Item.signed? 64) _ _ :=
      .signed value.le_toInt value.toInt_lt (by decide)
    exact .variant (by decide) hvalue.readable (by
      simp [ofItem?, Item.variant?_variant, List.idxOf?_cons, hvalue.value])
  | float bits =>
    have hvalue : Means 0 Item.size? _ _ := .size bits.toNat_lt
    have hread : ofItem? (.variant "Float" (.unsigned bits.toNat)) =
        (Item.size? (.unsigned bits.toNat)).bind fun n => some (.float (.ofNat n)) := rfl
    exact .variant (by decide) hvalue.readable (by simp [hread, hvalue.value])
  | text value =>
    have hvalue : Means 0 Item.string? _ _ := .string h
    exact .variant (by decide) hvalue.readable (by
      simp [ofItem?, Item.variant?_variant, List.idxOf?_cons, hvalue.value])

theorem means_key {depth : Nat} (key : Key) : Means depth keyOfItem? (keyToItem key) key := by
  have hkey : Means depth (Item.signed? 32) _ _ :=
    .signed key.le_toInt key.toInt_lt (by decide)
  exact ⟨hkey.readable, by simp [keyOfItem?, keyToItem, hkey.value]⟩

namespace Kind

theorem means_payload {α : Type} {depth : Nat} {read : Item → Option α} {i : Item} {v : α}
    {name field : String} {k : Kind} (hname : name.utf8ByteSize < 2 ^ 64)
    (hfield : field.utf8ByteSize < 2 ^ 64) (h : Means depth read i v)
    (hread : payload? field read (some (.record [(field, i)])) = some v →
      ofItem? (.variant name (.record [(field, i)])) = some k) :
    Means (depth + 2) ofItem? (.variant name (.record [(field, i)])) k := by
  have hnames : Item.Named [field] := ⟨by simp, by simp, by simpa using hfield⟩
  refine .recordVariant hname hnames rfl (by simpa using h.readable) fun hslots => hread ?_
  simp [payload?, hslots, Item.required?, h.value]

/-- A kind nests at most three deep: a variant, its record, and the variant of a literal. -/
theorem means {k : Kind} (h : k.Fits) : Means 3 Kind.ofItem? k.toItem k := by
  cases k with
  | existential role =>
    exact means_payload (by decide) (by decide) (means_key role) fun hrole => by
      simp [ofItem?, Item.variant?_variant, variantNames, List.idxOf?_cons, hrole]
  | universal role =>
    exact means_payload (by decide) (by decide) (means_key role) fun hrole => by
      simp [ofItem?, Item.variant?_variant, variantNames, List.idxOf?_cons, hrole]
  | concept key =>
    exact means_payload (by decide) (by decide) (means_key key) fun hkey => by
      simp [ofItem?, Item.variant?_variant, variantNames, List.idxOf?_cons, hkey]
  | literal value =>
    exact means_payload (by decide) (by decide) (Literal.means h) fun hvalue => by
      simp [ofItem?, Item.variant?_variant, variantNames, List.idxOf?_cons, hvalue]
  | _ => exact ⟨.text (by decide), by rfl⟩

end Kind

theorem Digest.ofList?_toList (d : Digest) : ofList? d.toList = some d := by
  simp [ofList?, toList, ← Vector.toList_toArray]

theorem Digest.means (d : Digest) : Means 1 Digest.ofItem? d.toItem d := by
  have hbytes : Means 1 (Item.list? (Item.natBelow? 256))
      (.ofList .unsigned (d.toList.map UInt8.toNat)) (d.toList.map UInt8.toNat) :=
    .list (by simp) fun n hn => by
      obtain ⟨byte, -, rfl⟩ := List.mem_map.1 hn
      exact .natBelow byte.toNat_lt (by decide)
  have hitem : d.toItem = .ofList .unsigned (d.toList.map UInt8.toNat) := by
    simp [toItem, Item.ofList]
  have hback : (d.toList.map UInt8.toNat).map UInt8.ofNat = d.toList := by
    simp [Function.comp_def]
  rw [hitem]
  exact ⟨hbytes.readable, by simp only [ofItem?, hbytes.value]; simp [hback, ofList?_toList]⟩

/-- A signature that is there is not taken for one that is missing. -/
theorem Digest.toItem_ne_null (d : Digest) : d.toItem ≠ .null := by
  simp [toItem, Item.ofList]

theorem Quality.means {depth : Nat} (q : Quality) : Means depth Quality.ofItem? q.toItem q := by
  cases q <;> exact ⟨.text (by decide), by rfl⟩

theorem Side.means {depth : Nat} (s : Side) : Means depth Side.ofItem? s.toItem s := by
  cases s <;> exact ⟨.text (by decide), by rfl⟩

/-- Origins whose nodes are positions. -/
@[mk_iff]
structure Origin.Fits (o : Origin) : Prop where
  reference : ∀ r ∈ o.reference?, r < 2 ^ 32
  comparison : ∀ c ∈ o.comparison?, c < 2 ^ 32

instance (o : Origin) : Decidable o.Fits :=
  decidable_of_iff _ o.fits_iff.symm

theorem Origin.means {o : Origin} (h : o.Fits) : Means 2 Origin.ofItem? o.toItem o := by
  cases o with
  | shared r c q =>
    have hr : Means 0 Item.index? _ _ := .index (h.reference r rfl)
    have hc : Means 0 Item.index? _ _ := .index (h.comparison c rfl)
    have hq : Means 0 Quality.ofItem? _ _ := q.means
    exact .recordVariant (by decide)
      (by decide : Item.Named ["reference", "comparison", "quality"]) rfl
      (by simp [hr.readable, hc.readable, hq.readable]) fun hslots => by
        simp [ofItem?, Item.variant?_variant, variantNames, List.idxOf?_cons, hslots,
          Item.required?, hr.value, hc.value, hq.value]
  | reference node =>
    have hnode : Means 1 Item.index? _ _ := .index (h.reference node rfl)
    exact .variant (by decide) hnode.readable (by
      simp [ofItem?, Item.variant?_variant, variantNames, List.idxOf?_cons, hnode.value])
  | comparison node =>
    have hnode : Means 1 Item.index? _ _ := .index (h.comparison node rfl)
    exact .variant (by decide) hnode.readable (by
      simp [ofItem?, Item.variant?_variant, variantNames, List.idxOf?_cons, hnode.value])
  | synthetic => exact ⟨.text (by decide), by rfl⟩

@[mk_iff]
structure MergedNode.Fits (n : MergedNode) : Prop where
  index : n.index < 2 ^ 32
  kind : n.kind.Fits
  childCount : n.children.length < 2 ^ 64
  children : ∀ child ∈ n.children, child < 2 ^ 32
  origin : n.origin.Fits

instance (n : MergedNode) : Decidable n.Fits :=
  decidable_of_iff _ n.fits_iff.symm

theorem MergedNode.means {n : MergedNode} (h : n.Fits) : Means 4 MergedNode.ofItem? n.toItem n := by
  have hindex : Means 3 Item.index? _ _ := .index h.index
  have hkind := Kind.means h.kind
  have hchildren : Means 3 (Item.list? Item.index?) _ _ :=
    .list h.childCount fun child hchild => .index (h.children child hchild)
  have horigin := (Origin.means h.origin).mono (by decide : 2 ≤ 3)
  have hreference := (Means.option (o := n.referenceSignature) Digest.toItem_ne_null
    fun d _ => d.means).mono (by decide : 1 ≤ 3)
  have hcomparison := (Means.option (o := n.comparisonSignature) Digest.toItem_ne_null
    fun d _ => d.means).mono (by decide : 1 ≤ 3)
  refine .record (by decide : Item.Named ["index", "kind", "children", "origin",
    "reference_signature", "comparison_signature"]) rfl ?_ fun hslots => ?_
  · simp [hindex.readable, hkind.readable, hchildren.readable, horigin.readable,
      hreference.readable, hcomparison.readable]
  · simp [ofItem?, hslots, Item.required?, Item.optional?, hindex.value, hkind.value,
      hchildren.value, horigin.value, hreference.value, hcomparison.value]

@[mk_iff]
structure OneSided.Fits (s : OneSided) : Prop where
  merged : s.merged < 2 ^ 32
  origin : s.origin < 2 ^ 32
  kind : s.kind.Fits

instance (s : OneSided) : Decidable s.Fits :=
  decidable_of_iff _ s.fits_iff.symm

theorem OneSided.means {s : OneSided} (h : s.Fits) : Means 4 OneSided.ofItem? s.toItem s := by
  have hmerged : Means 3 Item.index? _ _ := .index h.merged
  have hside : Means 3 Side.ofItem? _ _ := s.side.means
  have horigin : Means 3 Item.index? _ _ := .index h.origin
  have hkind := Kind.means h.kind
  have hsignature := s.signature.means.mono (by decide : 1 ≤ 3)
  refine .record (by decide : Item.Named ["merged", "side", "origin", "kind", "signature"]) rfl
    ?_ fun hslots => ?_
  · simp [hmerged.readable, hside.readable, horigin.readable, hkind.readable, hsignature.readable]
  · simp [ofItem?, hslots, Item.required?, hmerged.value, hside.value, horigin.value, hkind.value,
      hsignature.value]

@[mk_iff]
structure SharedSubtree.Fits (s : SharedSubtree) : Prop where
  merged : s.merged < 2 ^ 32
  reference : s.reference < 2 ^ 32
  comparison : s.comparison < 2 ^ 32
  kind : s.kind.Fits

instance (s : SharedSubtree) : Decidable s.Fits :=
  decidable_of_iff _ s.fits_iff.symm

theorem SharedSubtree.means {s : SharedSubtree} (h : s.Fits) :
    Means 4 SharedSubtree.ofItem? s.toItem s := by
  have hmerged : Means 3 Item.index? _ _ := .index h.merged
  have hreference : Means 3 Item.index? _ _ := .index h.reference
  have hcomparison : Means 3 Item.index? _ _ := .index h.comparison
  have hkind := Kind.means h.kind
  have hsignature := s.signature.means.mono (by decide : 1 ≤ 3)
  refine .record (by decide : Item.Named ["merged", "reference", "comparison", "kind",
    "signature"]) rfl ?_ fun hslots => ?_
  · simp [hmerged.readable, hreference.readable, hcomparison.readable, hkind.readable,
      hsignature.readable]
  · simp [ofItem?, hslots, Item.required?, hmerged.value, hreference.value, hcomparison.value,
      hkind.value, hsignature.value]

/-- Differences whose entries fit, in lists whose lengths can be written. -/
@[mk_iff]
structure Difference.Fits (d : Difference) : Prop where
  sharedRootCount : d.sharedRoots.length < 2 ^ 64
  sharedRoots : ∀ s ∈ d.sharedRoots, s.Fits
  sharedAssertionCount : d.sharedAssertions.length < 2 ^ 64
  sharedAssertions : ∀ s ∈ d.sharedAssertions, s.Fits
  additionCount : d.additions.length < 2 ^ 64
  additions : ∀ s ∈ d.additions, s.Fits
  deletionCount : d.deletions.length < 2 ^ 64
  deletions : ∀ s ∈ d.deletions, s.Fits

instance (d : Difference) : Decidable d.Fits :=
  decidable_of_iff _ d.fits_iff.symm

theorem Difference.means {d : Difference} (h : d.Fits) : Means 6 Difference.ofItem? d.toItem d := by
  have hroots := Means.list h.sharedRootCount fun s hs => SharedSubtree.means (h.sharedRoots s hs)
  have hassertions := Means.list h.sharedAssertionCount fun s hs =>
    SharedSubtree.means (h.sharedAssertions s hs)
  have hadditions := Means.list h.additionCount fun s hs => OneSided.means (h.additions s hs)
  have hdeletions := Means.list h.deletionCount fun s hs => OneSided.means (h.deletions s hs)
  refine .record (by decide : Item.Named ["shared_roots", "shared_assertions", "additions",
    "deletions"]) rfl ?_ fun hslots => ?_
  · simp [hroots.readable, hassertions.readable, hadditions.readable, hdeletions.readable]
  · simp [ofItem?, hslots, Item.required?, hroots.value, hassertions.value, hadditions.value,
      hdeletions.value]

@[mk_iff]
structure ReportPair.Fits (p : ReportPair) : Prop where
  reference : p.reference < 2 ^ 32
  comparison : p.comparison < 2 ^ 32

instance (p : ReportPair) : Decidable p.Fits :=
  decidable_of_iff _ p.fits_iff.symm

theorem ReportPair.means {p : ReportPair} (h : p.Fits) : Means 1 ReportPair.ofItem? p.toItem p := by
  have hreference : Means 0 Item.index? _ _ := .index h.reference
  have hcomparison : Means 0 Item.index? _ _ := .index h.comparison
  have hquality : Means 0 Quality.ofItem? _ _ := p.quality.means
  refine .record (by decide : Item.Named ["reference", "comparison", "quality"]) rfl ?_
    fun hslots => ?_
  · simp [hreference.readable, hcomparison.readable, hquality.readable]
  · simp [ofItem?, hslots, Item.required?, hreference.value, hcomparison.value, hquality.value]

namespace Report

/-- Reports whose sizes and positions have their widths, with parts that fit, in lists whose
lengths can be written. -/
@[mk_iff]
structure Fits (r : Report) : Prop where
  referenceSize : r.referenceSize < 2 ^ 64
  comparisonSize : r.comparisonSize < 2 ^ 64
  pairCount : r.pairs.length < 2 ^ 64
  pairs : ∀ p ∈ r.pairs, p.Fits
  mergedRoot : r.mergedRoot < 2 ^ 32
  mergedCount : r.merged.length < 2 ^ 64
  merged : ∀ n ∈ r.merged, n.Fits
  difference : r.difference.Fits

instance (r : Report) : Decidable r.Fits :=
  decidable_of_iff _ r.fits_iff.symm

/-- The deepest parts of a report are literals: below the report, its difference, a list of
subtrees and a subtree there are three more levels of its kind. -/
theorem means {r : Report} (h : r.Fits) : Means 7 ofItem? r.toItem r := by
  have hreferenceSize : Means 6 Item.size? _ _ := .size h.referenceSize
  have hcomparisonSize : Means 6 Item.size? _ _ := .size h.comparisonSize
  have hreference := r.referenceSignature.means.mono (by decide : 1 ≤ 6)
  have hcomparison := r.comparisonSignature.means.mono (by decide : 1 ≤ 6)
  have hpairs := (Means.list h.pairCount fun p hp => ReportPair.means (h.pairs p hp)).mono
    (by decide : 2 ≤ 6)
  have hroot : Means 6 Item.index? _ _ := .index h.mergedRoot
  have hmerged := (Means.list h.mergedCount fun n hn => MergedNode.means (h.merged n hn)).mono
    (by decide : 5 ≤ 6)
  have hdifference := Difference.means h.difference
  refine .record (by decide : Item.Named ["reference_len", "comparison_len", "reference_signature",
    "comparison_signature", "pairs", "merged_root", "merged", "diff"]) rfl ?_ fun hslots => ?_
  · simp [hreferenceSize.readable, hcomparisonSize.readable, hreference.readable,
      hcomparison.readable, hpairs.readable, hroot.readable, hmerged.readable,
      hdifference.readable]
  · simp [ofItem?, hslots, Item.required?, hreferenceSize.value, hcomparisonSize.value,
      hreference.value, hcomparison.value, hpairs.value, hroot.value, hmerged.value,
      hdifference.value]

theorem ofCbor?_toCbor {r : Report} (h : r.Fits) : ofCbor? r.toCbor = some r := by
  have hr := (means h).mono (by decide : 7 ≤ Cbor.nestingLimit)
  simp [ofCbor?, toCbor, Cbor.decode?_encode hr.readable, hr.value]

/-- Every report is read back from its bytes as it was, so whatever is read back from them has the
same bytes and the same fingerprint again. -/
theorem round_trip (r : Report) (h : r.Fits) :
    ofCbor? r.toCbor = some r ∧
      ∀ r', ofCbor? r.toCbor = some r' → r'.toCbor = r.toCbor ∧ r'.fingerprint = r.fingerprint := by
  have hback := ofCbor?_toCbor h
  refine ⟨hback, fun r' hr' => ?_⟩
  obtain rfl : r = r' := Option.some.inj (hback.symm.trans hr')
  exact ⟨rfl, rfl⟩

end Report

/-- A report with origins, literals and options of every form, and with the ends of the widths. -/
def Sample.kept : Report where
  referenceSize := 5
  comparisonSize := 2 ^ 64 - 1
  referenceSignature := .zero
  comparisonSignature := ⟨.replicate 32 255⟩
  pairs := [⟨0, 2 ^ 32 - 1, .exact⟩, ⟨256, 24, .approximate⟩]
  mergedRoot := 65536
  merged :=
    [⟨0, .root, [1, 2 ^ 32 - 1], .shared 0 23 .approximate, some .zero, some .zero⟩,
     ⟨1, .sufficientSet, [2], .synthetic, none, none⟩,
     ⟨2, .existential (-2147483648), [], .reference 255, some .zero, none⟩,
     ⟨3, .literal (.integer (-9223372036854775808)), [], .comparison 1, none, some .zero⟩,
     ⟨4, .literal (.float 0x7ff8000000000000), [], .synthetic, none, none⟩,
     ⟨5, .literal (.text "größer ≥ 𝟙"), [], .synthetic, none, none⟩]
  difference :=
    { sharedRoots := [⟨2, 3, 4, .universal 7, .zero⟩]
      sharedAssertions := [⟨5, 6, 7, .concept 2147483647, .zero⟩]
      additions := [⟨8, .comparison, 9, .literal (.boolean true), .zero⟩]
      deletions := [] }

theorem Report.round_trip_kept :
    Sample.kept.Fits ∧ ofCbor? Sample.kept.toCbor = some Sample.kept ∧
      ∀ r', ofCbor? Sample.kept.toCbor = some r' →
        r'.toCbor = Sample.kept.toCbor ∧ r'.fingerprint = Sample.kept.fingerprint :=
  ⟨by decide, round_trip Sample.kept (by decide)⟩

end Concordance
