import Concordance.Proofs.Merged.Size
import Concordance.Proofs.Unchanged

/-!
# Expressions of equal content

Two expressions have the same root signature exactly if the mapping between them
is total and all its pairs are exact. The mapping is an isomorphism then: the
pair of the roots is exact and carries the two whole trees. Nothing is left to
be reported, and the merged graph is a copy of the reference expression.
-/
namespace Concordance

open Expression Matching

/-- A mapping is an isomorphism of two expressions with exact pairs only. -/
structure Mapping.Isomorphism (m : Mapping) (reference comparison : Expression) : Prop where
  total : ∀ r < reference.size, ∃ c < comparison.size, m.correspondence? r = some ⟨c, .exact⟩
  onto : ∀ c < comparison.size, ∃ r < reference.size, m.correspondence? r = some ⟨c, .exact⟩
  injective : ∀ r r' c, m.comparisonFor? r = some c → m.comparisonFor? r' = some c → r = r'
  kinds : ∀ r c, m.comparisonFor? r = some c → reference.kind? r = comparison.kind? c
  /-- The partner of the parent of a node is the parent of its partner. -/
  parents : ∀ r c, m.comparisonFor? r = some c →
    (reference.parent? r).bind m.comparisonFor? = comparison.parent? c

namespace Matching

variable {p : Problem} {m : Mapping} {r c : Nat} {q : Quality}

/-- A pair of the roots that carries the two trees makes the mapping an isomorphism. -/
theorem isomorphism_of_carriesSubtree
    (h : m.CarriesSubtree p.reference p.comparison p.reference.root p.comparison.root)
    (hvalid : m.Valid p.reference.size p.comparison.size) :
    m.Isomorphism p.reference p.comparison where
  total r hr := by
    obtain ⟨c, hc, -, hrc⟩ := h.into r hr (inSubtree_root hr)
    exact ⟨c, hc, hrc⟩
  onto c hc := by
    obtain ⟨r, hr, -, hrc⟩ := h.onto c hc (inSubtree_root hc)
    exact ⟨r, hr, hrc⟩
  injective := h.injective
  kinds := h.kinds
  parents r c hrc := by
    obtain ⟨hr, hc⟩ := hvalid.lt_sizes hrc
    have hparents : ∀ a b, a < p.reference.size → m.comparisonFor? a = some b →
        (p.reference.parent? r = some a ↔ p.comparison.parent? c = some b) :=
      fun a b ha hab => h.parents a r b c (inSubtree_root ha) (inSubtree_root hr) hab hrc
    cases hparent : p.comparison.parent? c with
    | some b =>
      have hb := (lt_size_of_mem_children (parent?_eq_some_iff.1 hparent)).2
      obtain ⟨a, ha, -, hab⟩ := h.onto b hb (inSubtree_root hb)
      have hpair := Mapping.comparisonFor?_eq_some_iff.2 ⟨_, hab⟩
      rw [(hparents a b ha hpair).2 hparent]
      exact hpair
    | none =>
      cases habove : p.reference.parent? r with
      | none => rfl
      | some a =>
        have ha := (lt_size_of_mem_children (parent?_eq_some_iff.1 habove)).2
        obtain ⟨b, -, -, hab⟩ := h.into a ha (inSubtree_root ha)
        have hpair := Mapping.comparisonFor?_eq_some_iff.2 ⟨_, hab⟩
        rw [(hparents a b ha hpair).1 habove] at hparent
        simp at hparent

theorem isTotal_of_isomorphism (h : m.Isomorphism p.reference p.comparison)
    (hvalid : m.Valid p.reference.size p.comparison.size) : m.isTotal = true := by
  refine Mapping.isTotal_iff.2 ⟨fun r hr => ?_, fun c hc => ?_⟩
  · rw [hvalid.reference] at hr
    obtain ⟨c, -, hrc⟩ := h.total r hr
    exact ⟨c, Mapping.comparisonFor?_eq_some_iff.2 ⟨_, hrc⟩⟩
  · rw [hvalid.comparison] at hc
    obtain ⟨r, -, hrc⟩ := h.onto c hc
    exact ⟨r, (hvalid.agree r c).1 (Mapping.comparisonFor?_eq_some_iff.2 ⟨_, hrc⟩)⟩

theorem exists_child_of_isomorphism (h : m.Isomorphism p.reference p.comparison)
    (hrc : m.comparisonFor? r = some c) {y : Nat} (hy : y ∈ p.comparison.children c) :
    ∃ x ∈ p.reference.children r, m.comparisonFor? x = some y := by
  obtain ⟨x, -, hx⟩ := h.onto y (lt_size_of_mem_children hy).1
  have hxy := Mapping.comparisonFor?_eq_some_iff.2 ⟨_, hx⟩
  have habove := h.parents x y hxy
  rw [parent?_eq_some_iff.2 hy, Option.bind_eq_some_iff] at habove
  obtain ⟨a, ha, hac⟩ := habove
  rw [h.injective a r c hac hrc] at ha
  exact ⟨x, parent?_eq_some_iff.1 ha, hxy⟩

end Matching

namespace Difference

open Merged

variable {p : Problem} {m : Mapping} {side : Side}

section Isomorphism

variable (hp : p.Own) (hm : Fair p m) (hiso : m.Isomorphism p.reference p.comparison)

include hp hm hiso

theorem isUnchanged_of_isomorphism : (ofMerged (build (p.input m)) m).isUnchanged = true := by
  rw [isUnchanged_iff]
  intro side
  rw [List.eq_nil_iff_forall_not_mem]
  intro e he
  obtain ⟨-, ⟨k, -, hplace⟩, -, hnew⟩ := of_mem_oneSided hp hm he
  have hsize : e.origin < (p.tree side).size := hplace.lt_size (i := p.input m) hm.valid
  apply hnew
  cases side with
  | reference =>
    obtain ⟨c, -, hrc⟩ := hiso.total e.origin hsize
    exact ⟨e.origin, c, .exact, hrc, hm.exact _ c hrc, rfl⟩
  | comparison =>
    obtain ⟨r, -, hrc⟩ := hiso.onto e.origin hsize
    exact ⟨r, e.origin, .exact, hrc, hm.exact r _ hrc, rfl⟩

omit hp in
theorem syntheticCount_of_isomorphism : (build (p.input m)).syntheticCount = 0 := by
  have hi : (p.input m).Paired := hm.valid
  rw [syntheticCount_build hi, List.countP_eq_zero]
  intro v hv
  obtain ⟨a, ha⟩ := List.mem_iff_getElem?.1 hv
  rw [getElem?_joinedNodes] at ha
  obtain ⟨o, ho, rfl⟩ := Option.map_eq_some_iff.1 ha
  rcases (Input.mem_origins hi).1 (List.mem_of_getElem? ho) with ⟨r, hr, rfl⟩ | ⟨c, hc, hfree, -⟩
  · obtain ⟨c, -, hrc⟩ := hiso.total r hr
    rw [Input.referenceOrigin_of_some hi hrc] at ho ⊢
    have hpair := Mapping.comparisonFor?_eq_some_iff.2 ⟨_, hrc⟩
    rw [isOverfull_of_corresponding hi ho fun y hy => exists_child_of_isomorphism hiso hpair hy]
    simp
  · obtain ⟨r, -, hrc⟩ := hiso.onto c hc
    have hpair := (hm.valid.agree r c).1 (Mapping.comparisonFor?_eq_some_iff.2 ⟨_, hrc⟩)
    exact absurd (hfree.symm.trans hpair) (by simp)

omit hp in
theorem size_of_isomorphism : (build (p.input m)).size = p.reference.size := by
  have hi : (p.input m).Paired := hm.valid
  have hnone : p.comparison.postOrder.filter (fun c => !m.hasComparison c) = [] := by
    rw [List.filter_eq_nil_iff]
    intro c hc
    rw [p.comparison.postOrder_perm.mem_iff, List.mem_range] at hc
    obtain ⟨r, -, hrc⟩ := hiso.onto c hc
    rw [Bool.not_eq_true', Bool.not_eq_false, Mapping.hasComparison_iff]
    exact ⟨r, (hm.valid.agree r c).1 (Mapping.comparisonFor?_eq_some_iff.2 ⟨_, hrc⟩)⟩
  rw [size_build hi, syntheticCount_of_isomorphism hm hiso, length_origins hi, Nat.add_zero]
  show p.reference.size + (p.comparison.postOrder.filter fun c => !m.hasComparison c).length = _
  rw [hnone, List.length_nil, Nat.add_zero]

end Isomorphism

/-- For all expressions and settings, without collisions: the root signatures are equal exactly if
every node is in a pair and no pair is approximate. The mapping is an isomorphism then, nothing is
reported, and the merged graph is as large as the reference and has no conjunction put in. -/
theorem equal_content_recognised (reference comparison : Expression) (config : Config)
    (hfree : CollisionFree reference comparison) :
    ((SignatureTable.ofExpression reference).rootSignature =
        (SignatureTable.ofExpression comparison).rootSignature ↔
      (Mapping.ofExpressions reference comparison config).isTotal = true ∧
        (Mapping.ofExpressions reference comparison config).approximateCount = 0) ∧
    ((SignatureTable.ofExpression reference).rootSignature =
        (SignatureTable.ofExpression comparison).rootSignature →
      (Mapping.ofExpressions reference comparison config).Isomorphism reference comparison ∧
        (Correlation.ofExpressions reference comparison config).difference.isUnchanged = true ∧
        (Correlation.ofExpressions reference comparison config).merged.size = reference.size ∧
        (Correlation.ofExpressions reference comparison config).merged.syntheticCount = 0) := by
  have hp := Problem.sound_ofExpressions config hfree
  have hm := levelled_run hp
  have hroots := comparisonFor?_root_run hp.toOwn
  have hexact := rootSignature_eq_iff hm hp.toOwn hroots
  have hisomorphism : (SignatureTable.ofExpression reference).rootSignature =
      (SignatureTable.ofExpression comparison).rootSignature →
        (Mapping.ofExpressions reference comparison config).Isomorphism reference comparison := by
    intro hequal
    obtain ⟨q, hq⟩ := Mapping.comparisonFor?_eq_some_iff.1 hroots
    obtain rfl := Mapping.approximateCount_eq_zero_iff.1 (hexact.1 hequal) _ _ _ hq
    exact isomorphism_of_carriesSubtree (hm.carriesSubtree hq) hm.fair.valid
  refine ⟨⟨fun hequal => ?_, fun h => hexact.2 h.2⟩, fun hequal => ?_⟩
  · exact ⟨isTotal_of_isomorphism (hisomorphism hequal) hm.fair.valid, hexact.1 hequal⟩
  · have hiso := hisomorphism hequal
    have hunchanged := isUnchanged_of_isomorphism hp.toOwn hm.fair hiso
    have hsize := size_of_isomorphism hm.fair hiso
    have hsynthetic := syntheticCount_of_isomorphism hm.fair hiso
    exact ⟨hiso, hunchanged, hsize, hsynthetic⟩

/-- The two sets of the straight expression in the other order, with other numbers. -/
def Sample.reversed : Expression where
  nodes := .ofList [⟨.concept 2, []⟩, ⟨.sufficientSet, [0]⟩, ⟨.concept 1, []⟩,
    ⟨.necessarySet, [2]⟩, ⟨.root, [1, 3]⟩]
  root := 4
  parents := #[some 1, some 4, some 3, some 4, none]
  valid := by decide +kernel

/-- What evaluation says about the two expressions. -/
theorem Sample.evaluated_reversed : CollisionFree straight reversed ∧
    (SignatureTable.ofExpression straight).rootSignature =
      (SignatureTable.ofExpression reversed).rootSignature := by
  decide +kernel

theorem equal_content_recognised_reversed :
    (Mapping.ofExpressions Sample.straight Sample.reversed {}).Isomorphism
        Sample.straight Sample.reversed ∧
      (Correlation.ofExpressions Sample.straight Sample.reversed {}).difference.isUnchanged =
        true ∧
      (Correlation.ofExpressions Sample.straight Sample.reversed {}).merged.size = 5 ∧
      (Correlation.ofExpressions Sample.straight Sample.reversed {}).merged.syntheticCount = 0 :=
  (equal_content_recognised Sample.straight Sample.reversed {} Sample.evaluated_reversed.1).2
    Sample.evaluated_reversed.2

end Difference
end Concordance
