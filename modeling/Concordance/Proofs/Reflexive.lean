import Concordance.Proofs.Isomorphic
import Concordance.Proofs.Matching.Identity
import Concordance.Proofs.Merged.Numbering

/-!
# Correlating an expression with itself

An expression that is correlated with itself has every node as its own partner,
so the mapping is the identity and an isomorphism. The merged graph has one node
for each node of the expression, with the merged nodes of its children in stored
order, and nothing is reported. This needs no assumption on the digests.
-/
namespace Concordance

open Expression Matching

/-- A merged graph is a copy of an expression that is merged with itself: every merged node is one
node of the expression on both sides, and has the merged nodes of its children as children. -/
structure Merged.CopyOf (m : Merged) (e : Expression) : Prop where
  size : m.size = e.size
  root : m.ofReference? e.root = some m.root
  sides : ∀ n, m.ofComparison? n = m.ofReference? n
  nodes : ∀ n < e.size, ∃ a v, m.ofReference? n = some a ∧ m.nodes.get? a = some v ∧
    v.index = a ∧ v.origin = .shared n n .exact ∧ e.kind? n = some v.kind ∧
    v.children.map some = (e.children n).map m.ofReference? ∧
    v.referenceSignature = (SignatureTable.ofExpression e).get? n ∧
    v.comparisonSignature = (SignatureTable.ofExpression e).get? n
  onto : ∀ a v, m.nodes.get? a = some v → ∃ n < e.size, v.origin = .shared n n .exact

namespace Merged

variable {p : Problem} {m : Mapping} {r c : Nat}

/-- In an isomorphism every pair has a merged node over the merged nodes of its reference node's
children. -/
theorem exists_joinedNode_of_isomorphism (hm : Fair p m)
    (hiso : m.Isomorphism p.reference p.comparison) (hrc : m.correspondence? r = some ⟨c, .exact⟩) :
    ∃ a, (build (p.input m)).ofReference? r = some a ∧
      (build (p.input m)).nodes.get? a =
        some ((p.input m).numbered.joinedNode a (.shared r c .exact)) ∧
      ((p.input m).numbered.joinedChildren a (.shared r c .exact)).map some =
        (p.reference.children r).map (build (p.input m)).ofReference? := by
  have hi : (p.input m).Paired := hm.valid
  have hpair := Mapping.comparisonFor?_eq_some_iff.2 ⟨_, hrc⟩
  have hr := (hm.valid.lt_sizes hpair).1
  obtain ⟨a, ha⟩ := Input.exists_referenceIndex hi hr
  have ho := (Input.referenceIndex_eq_some_iff hi hr).1 ha
  rw [Input.referenceOrigin_of_some hi hrc] at ho
  have hchildren : ∀ y ∈ p.comparison.children c,
      ∃ x ∈ p.reference.children r, m.comparisonFor? x = some y :=
    fun y hy => exists_child_of_isomorphism hiso hpair hy
  refine ⟨a, ha, ?_, ?_⟩
  · rcases get?_build_of_origin ho with ⟨-, hnode⟩ | ⟨hfull, -⟩
    · exact hnode
    · rw [isOverfull_of_corresponding hi ho hchildren] at hfull
      cases hfull
  · rw [joinedChildren_of_corresponding hi ho hchildren, indicesOf, List.map_filterMap]
    apply List.filterMap_eq_map_iff_forall_eq_some.2
    intro x hx
    obtain ⟨k, hk⟩ := Input.exists_referenceIndex hi (lt_size_of_mem_children hx).1
    show Option.map some ((p.input m).referenceIndex[x]?.getD none) =
      some ((p.input m).referenceIndex[x]?.getD none)
    rw [hk]
    rfl

end Merged

namespace Mapping

variable {e : Expression} {m : Mapping}

/-- The identity is an isomorphism of an expression with itself. -/
theorem isomorphism_self (hvalid : m.Valid e.size e.size)
    (hself : ∀ n < e.size, m.correspondence? n = some ⟨n, .exact⟩) : m.Isomorphism e e := by
  have heq : ∀ r c, m.comparisonFor? r = some c → c = r := by
    intro r c hrc
    have hr := comparisonFor?_eq_some_iff.2 ⟨_, hself r (hvalid.lt_sizes hrc).1⟩
    exact Option.some.inj (hrc.symm.trans hr)
  refine ⟨fun r hr => ⟨r, hr, hself r hr⟩, fun c hc => ⟨c, hc, hself c hc⟩,
    fun r r' c => hvalid.injective, fun r c hrc => by rw [heq r c hrc], fun r c hrc => ?_⟩
  rw [heq r c hrc]
  cases hparent : e.parent? r with
  | none => rfl
  | some a =>
    have ha := (lt_size_of_mem_children (parent?_eq_some_iff.1 hparent)).2
    exact comparisonFor?_eq_some_iff.2 ⟨_, hself a ha⟩

end Mapping

namespace Merged

section Mirrored

variable {p : Problem} {m : Mapping} (hp : p.Mirrored) (hm : Fair p m)
  (hself : ∀ n < p.reference.size, m.correspondence? n = some ⟨n, .exact⟩)

include hp hm hself

theorem isomorphism_of_mirrored : m.Isomorphism p.reference p.comparison := by
  have hvalid := hm.valid
  rw [hp.same] at hvalid ⊢
  exact Mapping.isomorphism_self hvalid hself

theorem ofComparison?_of_mirrored (n : Nat) :
    (build (p.input m)).ofComparison? n = (build (p.input m)).ofReference? n := by
  have hi : (p.input m).Paired := hm.valid
  by_cases hn : n < p.reference.size
  · exact Input.comparisonIndex_of_pair hi (Mapping.comparisonFor?_eq_some_iff.2 ⟨_, hself n hn⟩)
  · have hnone : ∀ side, (build (p.input m)).image? side n = none := by
      intro side
      cases himage : (build (p.input m)).image? side n with
      | none => rfl
      | some k =>
        have hlt : n < ((p.input m).tree side).size := Input.lt_size_of_image? himage
        cases side with
        | reference => exact absurd hlt hn
        | comparison =>
          have hlt' : n < p.comparison.size := hlt
          rw [hp.same] at hlt'
          exact absurd hlt' hn
    exact (hnone .comparison).trans (hnone .reference).symm

theorem copyOf_of_mirrored : (build (p.input m)).CopyOf p.reference := by
  have hi : (p.input m).Paired := hm.valid
  have hiso := isomorphism_of_mirrored hp hm hself
  have hnodes : ∀ n < p.reference.size, ∃ a v, (build (p.input m)).ofReference? n = some a ∧
      (build (p.input m)).nodes.get? a = some v ∧ v.index = a ∧ v.origin = .shared n n .exact ∧
      p.reference.kind? n = some v.kind ∧
      v.children.map some = (p.reference.children n).map (build (p.input m)).ofReference? ∧
      v.referenceSignature = (SignatureTable.ofExpression p.reference).get? n ∧
      v.comparisonSignature = (SignatureTable.ofExpression p.reference).get? n := by
    intro n hn
    obtain ⟨a, ha, hnode, hchildren⟩ := exists_joinedNode_of_isomorphism hm hiso (hself n hn)
    obtain ⟨k, hk⟩ := exists_kind? hn
    refine ⟨a, _, ha, hnode, rfl, rfl, ?_, hchildren, ?_, ?_⟩
    · show p.reference.kind? n = some ((p.reference.kind? n).getD .conjunction)
      rw [hk, Option.getD_some]
    · rw [← hp.referenceTable]
      rfl
    · rw [← hp.same, ← hp.comparisonTable]
      rfl
  refine ⟨Difference.size_of_isomorphism hm hiso, referenceIndex_root hi,
    ofComparison?_of_mirrored hp hm hself, hnodes, fun a v hv => ?_⟩
  have hsynthetic : v.origin ≠ .synthetic := by
    have hnone := Difference.syntheticCount_of_isomorphism hm hiso
    rw [syntheticCount, List.countP_eq_zero] at hnone
    rw [Arena.get?_eq] at hv
    simpa using hnone v (List.mem_of_getElem? hv)
  have hmem := List.mem_of_getElem? (getElem?_origins_of_node hi hv hsynthetic)
  rcases (Input.mem_origins hi).1 hmem with ⟨r, hr, horigin⟩ | ⟨c, hc, hfree, -⟩
  · exact ⟨r, hr, horigin.trans (Input.referenceOrigin_of_some hi (hself r hr))⟩
  · obtain ⟨r, -, hrc⟩ := hiso.onto c hc
    have hpair := (hm.valid.agree r c).1 (Mapping.comparisonFor?_eq_some_iff.2 ⟨_, hrc⟩)
    exact absurd (hfree.symm.trans hpair) (by simp)

end Mirrored
end Merged

/-- For every expression and all settings: correlated with itself, the expression has every node as
its own partner in an exact pair, the merged graph is a copy of it with shared nodes only, and
nothing is added or deleted. -/
theorem reflexive_correlation_is_identity (e : Expression) (config : Config) :
    (∀ n found, (Mapping.ofExpressions e e config).correspondence? n = some found ↔
      n < e.size ∧ found = ⟨n, .exact⟩) ∧
    (Correlation.ofExpressions e e config).merged.CopyOf e ∧
    (Correlation.ofExpressions e e config).merged.syntheticCount = 0 ∧
    (Correlation.ofExpressions e e config).difference.additions = [] ∧
    (Correlation.ofExpressions e e config).difference.deletions = [] := by
  have hp := mirrored_ofExpressions e config
  have hm := fair_run hp.toOwn
  have hself : ∀ n < e.size,
      (Mapping.ofExpressions e e config).correspondence? n = some ⟨n, .exact⟩ :=
    fun n hn => correspondence?_run_self hp hn
  have hiso := Merged.isomorphism_of_mirrored hp hm hself
  have hcopy := Merged.copyOf_of_mirrored hp hm hself
  have hsynthetic := Difference.syntheticCount_of_isomorphism hm hiso
  have hunchanged := Difference.isUnchanged_iff.1
    (Difference.isUnchanged_of_isomorphism hp.toOwn hm hiso)
  have hadditions := hunchanged .comparison
  have hdeletions := hunchanged .reference
  refine ⟨fun n found => ⟨fun h => ?_, ?_⟩, hcopy, hsynthetic, hadditions, hdeletions⟩
  · obtain ⟨c, q⟩ := found
    have hn : n < e.size := (hm.valid.lt_sizes (Mapping.comparisonFor?_eq_some_iff.2 ⟨q, h⟩)).1
    exact ⟨hn, Option.some.inj (h.symm.trans (hself n hn))⟩
  · rintro ⟨hn, rfl⟩
    exact hself n hn

end Concordance
