import Concordance.Matching.State
import Concordance.Proofs.Mapping
import Concordance.Proofs.Signature

/-!
# Alike nodes of a matching problem

A problem owns its tables if they are those of its two expressions. Two nodes
are alike if they have the same signature. Without collisions alike nodes have
the same kind, equally large subtrees and alike children, and since an ancestor
has a larger subtree than its descendants, a pair of alike nodes never inverts
other pairs of alike nodes.
-/
namespace Concordance.Matching

open Expression

namespace Problem

/-- The tables and layouts of a problem are those of its expressions. -/
structure Own (p : Problem) : Prop where
  referenceTable : p.referenceTable = .ofExpression p.reference
  comparisonTable : p.comparisonTable = .ofExpression p.comparison
  referenceLayout : p.referenceLayout = .ofExpression p.reference
  comparisonLayout : p.comparisonLayout = .ofExpression p.comparison

theorem own_ofExpressions (reference comparison : Expression) (config : Config) :
    (ofExpressions reference comparison config).Own :=
  ⟨rfl, rfl, rfl, rfl⟩

/-- A reference node and a comparison node with the same signature. -/
def Alike (p : Problem) (r c : Nat) : Prop :=
  ∃ s, p.referenceTable.get? r = some s ∧ p.comparisonTable.get? c = some s

variable {p : Problem} {r c : Nat}

theorem alike_iff {s : Signature} (hr : p.referenceTable.get? r = some s) :
    p.Alike r c ↔ p.comparisonTable.get? c = some s := by
  constructor
  · rintro ⟨t, ht, hc⟩
    rw [hr] at ht
    rwa [Option.some.inj ht]
  · intro hc
    exact ⟨s, hr, hc⟩

theorem Alike.get?_eq (h : p.Alike r c) :
    p.referenceTable.get? r = p.comparisonTable.get? c := by
  obtain ⟨s, hr, hc⟩ := h
  rw [hr, hc]

theorem Alike.signaturesAgree (h : p.Alike r c) : p.signaturesAgree r c = true := by
  rw [Problem.signaturesAgree, beq_iff_eq]
  exact h.get?_eq

theorem mem_largestFirst : r ∈ p.largestFirst ↔ r < p.reference.size := by
  rw [largestFirst, mem_sortBy, List.mem_range]

namespace Own

variable (hp : p.Own)

include hp

theorem size_referenceTable : p.referenceTable.size = p.reference.size := by
  rw [hp.referenceTable]
  exact SignatureTable.size_ofExpression _

theorem size_comparisonTable : p.comparisonTable.size = p.comparison.size := by
  rw [hp.comparisonTable]
  exact SignatureTable.size_ofExpression _

theorem exists_reference_get? (hr : r < p.reference.size) :
    ∃ s, p.referenceTable.get? r = some s := by
  rw [hp.referenceTable]
  exact SignatureTable.exists_get? hr

theorem lt_referenceSize_of_get? {s : Signature} (h : p.referenceTable.get? r = some s) :
    r < p.reference.size := by
  rw [hp.referenceTable] at h
  exact SignatureTable.lt_size_of_get? h

theorem lt_comparisonSize_of_get? {s : Signature} (h : p.comparisonTable.get? c = some s) :
    c < p.comparison.size := by
  rw [hp.comparisonTable] at h
  exact SignatureTable.lt_size_of_get? h

theorem lt_sizes (h : p.Alike r c) : r < p.reference.size ∧ c < p.comparison.size := by
  obtain ⟨s, hr, hc⟩ := h
  exact ⟨hp.lt_referenceSize_of_get? hr, hp.lt_comparisonSize_of_get? hc⟩

theorem alike_of_get?_eq (hr : r < p.reference.size)
    (h : p.referenceTable.get? r = p.comparisonTable.get? c) : p.Alike r c := by
  obtain ⟨s, hs⟩ := hp.exists_reference_get? hr
  exact ⟨s, hs, h ▸ hs⟩

theorem alike_of_signaturesAgree (hr : r < p.reference.size)
    (h : p.signaturesAgree r c = true) : p.Alike r c := by
  rw [Problem.signaturesAgree, beq_iff_eq] at h
  exact hp.alike_of_get?_eq hr h

theorem mem_reference_nodesWith {s : Signature} :
    r ∈ p.referenceTable.nodesWith s ↔ p.referenceTable.get? r = some s := by
  rw [hp.referenceTable]
  exact SignatureTable.mem_nodesWith

theorem mem_comparison_nodesWith {s : Signature} :
    c ∈ p.comparisonTable.nodesWith s ↔ p.comparisonTable.get? c = some s := by
  rw [hp.comparisonTable]
  exact SignatureTable.mem_nodesWith

/-- The anchor of a node is the one node with its signature, if the node itself is the only one. -/
theorem anchor?_eq_some_iff {anchor : Nat × Nat} :
    p.anchor? r = some anchor ↔ anchor.1 = r ∧ ∃ s, p.referenceTable.nodesWith s = [r] ∧
      p.comparisonTable.nodesWith s = [anchor.2] := by
  unfold anchor?
  constructor
  · intro h
    split at h
    · simp at h
    · rename_i s hs
      split at h
      · rename_i x c hx hc
        obtain rfl := Option.some.inj h
        have hmem := hp.mem_reference_nodesWith.2 hs
        rw [hx, List.mem_singleton] at hmem
        exact ⟨rfl, s, by rw [hmem, hx], hc⟩
      · simp at h
  · rintro ⟨hfirst, s, hr, hc⟩
    have hs := hp.mem_reference_nodesWith.1 (hr ▸ List.mem_singleton_self r)
    simp only [hs, hr, hc, Option.some.injEq]
    exact Prod.ext hfirst.symm rfl

theorem mem_anchors_iff {anchor : Nat × Nat} :
    anchor ∈ p.anchors ↔ ∃ s, p.referenceTable.nodesWith s = [anchor.1] ∧
      p.comparisonTable.nodesWith s = [anchor.2] := by
  rw [anchors, List.mem_filterMap]
  constructor
  · rintro ⟨r, -, h⟩
    obtain ⟨hfirst, s, hr, hc⟩ := hp.anchor?_eq_some_iff.1 h
    exact ⟨s, by rw [hr, hfirst], hc⟩
  · rintro ⟨s, hr, hc⟩
    have hs := hp.mem_reference_nodesWith.1 (hr ▸ List.mem_singleton_self anchor.1)
    refine ⟨anchor.1, ?_, hp.anchor?_eq_some_iff.2 ⟨rfl, s, hr, hc⟩⟩
    rw [mem_sortBy, List.mem_range]
    exact hp.size_referenceTable ▸ (hp.lt_referenceSize_of_get? hs)

theorem alike_of_mem_anchors {anchor : Nat × Nat} (h : anchor ∈ p.anchors) :
    p.Alike anchor.1 anchor.2 := by
  obtain ⟨s, hr, hc⟩ := hp.mem_anchors_iff.1 h
  exact ⟨s, hp.mem_reference_nodesWith.1 (hr ▸ List.mem_singleton_self _),
    hp.mem_comparison_nodesWith.1 (hc ▸ List.mem_singleton_self _)⟩

theorem subtreeSize_eq (hr : r < p.reference.size) :
    p.referenceTable.subtreeSize r = p.reference.extent r := by
  rw [hp.referenceTable]
  exact SignatureTable.subtreeSize_ofExpression hr

end Own

/-- A problem with tables of its own whose expressions are free of collisions. -/
structure Sound (p : Problem) : Prop extends p.Own where
  collisionFree : CollisionFree p.reference p.comparison

theorem sound_ofExpressions {reference comparison : Expression} (config : Config)
    (h : CollisionFree reference comparison) : (ofExpressions reference comparison config).Sound :=
  ⟨own_ofExpressions reference comparison config, h⟩

namespace Sound

variable (hp : p.Sound)

include hp

theorem get?_eq (h : p.Alike r c) :
    (SignatureTable.ofExpression p.reference).get? r =
      (SignatureTable.ofExpression p.comparison).get? c := by
  have hget := h.get?_eq
  rwa [hp.referenceTable, hp.comparisonTable] at hget

theorem kind?_eq (h : p.Alike r c) : p.reference.kind? r = p.comparison.kind? c :=
  hp.collisionFree.kind?_eq (hp.lt_sizes h).1 (hp.get?_eq h)

theorem extent_eq (h : p.Alike r c) : p.reference.extent r = p.comparison.extent c :=
  hp.collisionFree.extent_eq (hp.lt_sizes h).1 (hp.get?_eq h)

/-- Alike nodes have children of the same signatures, each as often. -/
theorem children_perm (h : p.Alike r c) :
    ((p.reference.children r).map p.referenceTable.get?).Perm
      ((p.comparison.children c).map p.comparisonTable.get?) := by
  rw [hp.referenceTable, hp.comparisonTable]
  exact hp.collisionFree.childSignatures_perm (hp.lt_sizes h).1 (hp.get?_eq h)

theorem exists_alike_comparison_child (h : p.Alike r c) {x : Nat}
    (hx : x ∈ p.reference.children r) : ∃ y ∈ p.comparison.children c, p.Alike x y := by
  obtain ⟨y, hy, heq⟩ := List.mem_map.1
    ((hp.children_perm h).subset (List.mem_map_of_mem (f := p.referenceTable.get?) hx))
  exact ⟨y, hy, hp.alike_of_get?_eq (lt_size_of_mem_children hx).1 heq.symm⟩

theorem exists_alike_reference_child (h : p.Alike r c) {y : Nat}
    (hy : y ∈ p.comparison.children c) : ∃ x ∈ p.reference.children r, p.Alike x y := by
  obtain ⟨x, hx, heq⟩ := List.mem_map.1
    ((hp.children_perm h).symm.subset (List.mem_map_of_mem (f := p.comparisonTable.get?) hy))
  exact ⟨x, hx, hp.alike_of_get?_eq (lt_size_of_mem_children hx).1 heq⟩

/-- A pair of alike nodes inverts no pair of alike nodes: an ancestor would have to be as large as
one of its descendants. -/
theorem inverts_eq_false {m : Mapping} {referenceSize comparisonSize : Nat}
    (hm : m.Valid referenceSize comparisonSize)
    (halike : ∀ a b, m.comparisonFor? a = some b → p.Alike a b) (h : p.Alike r c) :
    p.inverts m r c = false := by
  obtain ⟨hr, hc⟩ := hp.lt_sizes h
  have hextent := hp.extent_eq h
  rw [inverts, Bool.or_eq_false_iff, List.any_eq_false, List.any_eq_false]
  constructor
  · rintro b hb hencloses
    obtain ⟨a, ha, hab⟩ := List.mem_filterMap.1 hb
    have hpair := halike a b hab
    rw [hp.comparisonLayout, Layout.encloses_iff hc (hp.lt_sizes hpair).2] at hencloses
    have hbelow := extent_lt_of_isAncestor (hp.lt_sizes hpair).2 hencloses
    have habove := extent_lt_of_isAncestor hr (isAncestor_iff.2 ha)
    have := hp.extent_eq hpair
    omega
  · rintro a ha hencloses
    obtain ⟨b, hb, hab⟩ := List.mem_filterMap.1 ha
    have hpair := halike a b ((hm.agree a b).2 hab)
    rw [hp.referenceLayout, Layout.encloses_iff hr (hp.lt_sizes hpair).1] at hencloses
    have hbelow := extent_lt_of_isAncestor (hp.lt_sizes hpair).1 hencloses
    have habove := extent_lt_of_isAncestor hc (isAncestor_iff.2 hb)
    have := hp.extent_eq hpair
    omega

theorem admits_of_alike {m : Mapping} {referenceSize comparisonSize : Nat}
    (hm : m.Valid referenceSize comparisonSize)
    (halike : ∀ a b, m.comparisonFor? a = some b → p.Alike a b) (h : p.Alike r c) :
    p.admits m r c = true := by
  rw [admits, kindsAgree, hp.kind?_eq h, hp.inverts_eq_false hm halike h, BEq.rfl,
    Bool.and_false]
  rfl

end Sound
end Problem
end Concordance.Matching
