import Concordance.Proofs.Matching.Completion
import Mathlib.Data.List.Perm.Subperm

/-!
# Exact pairs of a mapping

Without collisions exact matching is maximum: of the nodes with one signature as
many are in exact pairs as the side with fewer of them has. An exact pair
carries its subtrees: the mapping takes the subtree of the reference node to
that of the comparison node, one to one, along exact pairs, and keeps parents.
-/
namespace Concordance

open Expression

namespace Mapping

/-- Exact pairs whose reference node has a signature. -/
def exactPairs (m : Mapping) (t : SignatureTable) (s : Signature) : List (Nat × Correspondence) :=
  m.pairs.filter fun pair => pair.2.quality = .exact ∧ t.get? pair.1 = some s

theorem mem_exactPairs {m : Mapping} {t : SignatureTable} {s : Signature} {r : Nat}
    {found : Correspondence} : (r, found) ∈ m.exactPairs t s ↔
      m.correspondence? r = some found ∧ found.quality = .exact ∧ t.get? r = some s := by
  rw [exactPairs, List.mem_filter, mem_pairs, decide_eq_true_eq]

/-- An exact pair carries its subtrees if the mapping, restricted to them, is an isomorphism of
trees all of whose pairs are exact. -/
structure CarriesSubtree (m : Mapping) (reference comparison : Expression) (r c : Nat) : Prop where
  into : ∀ x < reference.size, reference.InSubtree r x →
    ∃ y < comparison.size, comparison.InSubtree c y ∧ m.correspondence? x = some ⟨y, .exact⟩
  onto : ∀ y < comparison.size, comparison.InSubtree c y →
    ∃ x < reference.size, reference.InSubtree r x ∧ m.correspondence? x = some ⟨y, .exact⟩
  injective : ∀ x x' y, m.comparisonFor? x = some y → m.comparisonFor? x' = some y → x = x'
  kinds : ∀ x y, m.comparisonFor? x = some y → reference.kind? x = comparison.kind? y
  parents : ∀ x x' y y', reference.InSubtree r x → reference.InSubtree r x' →
    m.comparisonFor? x = some y → m.comparisonFor? x' = some y' →
      (reference.parent? x' = some x ↔ comparison.parent? y' = some y)

end Mapping

namespace Matching

variable {p : Problem} {m : Mapping} {r c : Nat}

theorem length_le_of_map {α β : Type} {xs : List α} {ys : List β} (f : α → β)
    (hnodup : (xs.map f).Nodup) (hmem : ∀ x ∈ xs, f x ∈ ys) : xs.length ≤ ys.length := by
  rw [← List.length_map (f := f)]
  apply List.Subperm.length_le
  apply List.subperm_of_subset hnodup
  intro y hy
  obtain ⟨x, hx, rfl⟩ := List.mem_map.1 hy
  exact hmem x hx

theorem length_le_of_cover {α β : Type} {xs : List α} {ys : List β} (f : α → β)
    (hnodup : ys.Nodup) (hcover : ∀ y ∈ ys, ∃ x ∈ xs, f x = y) : ys.length ≤ xs.length := by
  have hlength : (xs.map f).length = xs.length := List.length_map f
  rw [← hlength]
  apply List.Subperm.length_le
  apply List.subperm_of_subset hnodup
  intro y hy
  exact List.mem_map.2 (hcover y hy)

section Count

variable (hp : p.Own) (hm : Fair p m) (s : Signature)

include hp

theorem length_exactPairs_le_reference : (m.exactPairs p.referenceTable s).length ≤
    (p.referenceTable.nodesWith s).length := by
  apply length_le_of_map Prod.fst
  · rw [List.Nodup, List.pairwise_map]
    exact (m.pairs_pairwise.filter _).imp Nat.ne_of_lt
  · intro pair hpair
    exact hp.mem_reference_nodesWith.2 (Mapping.mem_exactPairs.1 hpair).2.2

theorem length_reference_le_exactPairs
    (h : ∀ r, p.referenceTable.get? r = some s → ∃ c, m.correspondence? r = some ⟨c, .exact⟩) :
    (p.referenceTable.nodesWith s).length ≤ (m.exactPairs p.referenceTable s).length := by
  apply length_le_of_cover Prod.fst (SignatureTable.nodesWith_nodup _ _)
  intro r hr
  have hs := hp.mem_reference_nodesWith.1 hr
  obtain ⟨c, hc⟩ := h r hs
  exact ⟨_, Mapping.mem_exactPairs.2 ⟨hc, rfl, hs⟩, rfl⟩

include hm

theorem length_exactPairs_le_comparison : (m.exactPairs p.referenceTable s).length ≤
    (p.comparisonTable.nodesWith s).length := by
  apply length_le_of_map fun pair => pair.2.comparison
  · rw [List.Nodup, List.pairwise_map]
    exact hm.valid.pairs_pairwise.filter _
  · rintro ⟨r, c, q⟩ hpair
    obtain ⟨hr, rfl, hs⟩ := Mapping.mem_exactPairs.1 hpair
    exact hp.mem_comparison_nodesWith.2 ((Problem.alike_iff hs).1 (hm.exact r c hr))

theorem length_comparison_le_exactPairs
    (h : ∀ c, p.comparisonTable.get? c = some s → ∃ r, m.correspondence? r = some ⟨c, .exact⟩) :
    (p.comparisonTable.nodesWith s).length ≤ (m.exactPairs p.referenceTable s).length := by
  apply length_le_of_cover (fun pair => pair.2.comparison) (SignatureTable.nodesWith_nodup _ _)
  intro c hc
  have hs := hp.mem_comparison_nodesWith.1 hc
  obtain ⟨r, hr⟩ := h c hs
  have halike := hm.exact r c hr
  exact ⟨_, Mapping.mem_exactPairs.2 ⟨hr, rfl, halike.get?_eq.trans hs⟩, rfl⟩

end Count

/-- Of the nodes with a signature as many are in exact pairs as the side with fewer of them has:
an unmatched node on either side would be alike to one on the other. -/
theorem Levelled.length_exactPairs (hp : p.Own) (hm : Levelled p m) (s : Signature) :
    (m.exactPairs p.referenceTable s).length =
      min (p.referenceTable.nodesWith s).length (p.comparisonTable.nodesWith s).length := by
  have hreference := length_exactPairs_le_reference (m := m) hp s
  have hcomparison := length_exactPairs_le_comparison hp hm.fair s
  by_cases hall : ∀ r, p.referenceTable.get? r = some s →
      ∃ c, m.correspondence? r = some ⟨c, .exact⟩
  · have := length_reference_le_exactPairs hp s hall
    omega
  · rw [Classical.not_forall] at hall
    obtain ⟨r, hr⟩ := hall
    obtain ⟨hs, hfree⟩ := Classical.not_imp.1 hr
    have := length_comparison_le_exactPairs hp hm.fair s fun c hc =>
      (hm.exhausted r c ⟨s, hs, hc⟩).resolve_left hfree
    omega

/-- For all expressions and settings, without collisions: the mapping has as many exact pairs for
each signature as there can be, and signatures tell exact pairs from approximate ones. -/
theorem exact_matching_maximum (reference comparison : Expression) (config : Config)
    (hfree : CollisionFree reference comparison) :
    (∃ log, outcome (.ofExpressions reference comparison config) =
        .ok (.ofExpressions reference comparison config, log)) ∧
      (∀ s, ((Mapping.ofExpressions reference comparison config).exactPairs
          (.ofExpression reference) s).length =
        min ((SignatureTable.ofExpression reference).nodesWith s).length
          ((SignatureTable.ofExpression comparison).nodesWith s).length) ∧
      ∀ r c q, (Mapping.ofExpressions reference comparison config).correspondence? r =
          some ⟨c, q⟩ →
        (q = .exact ↔ ∃ s, (SignatureTable.ofExpression reference).get? r = some s ∧
          (SignatureTable.ofExpression comparison).get? c = some s) := by
  have hp := Problem.sound_ofExpressions config hfree
  have hm := levelled_run hp
  refine ⟨⟨_, outcome_eq hp.toOwn⟩, hm.length_exactPairs hp.toOwn, fun r c q hrc => ?_⟩
  constructor
  · rintro rfl
    exact hm.fair.exact r c hrc
  · intro halike
    cases q with
    | exact => rfl
    | approximate => exact absurd halike (hm.approximate r c hrc).1

/-- A concept below a role in one set, and by itself in another one. -/
def Sample.twoSets : Expression where
  nodes := .ofList [⟨.concept 1, []⟩, ⟨.existential 7, [0]⟩, ⟨.necessarySet, [1]⟩,
    ⟨.concept 1, []⟩, ⟨.sufficientSet, [3]⟩, ⟨.root, [2, 4]⟩]
  root := 5
  parents := #[some 1, some 2, some 5, some 4, some 5, none]
  valid := by decide +kernel

def Sample.oneSet : Expression where
  nodes := .ofList [⟨.concept 1, []⟩, ⟨.existential 7, [0]⟩, ⟨.sufficientSet, [1]⟩, ⟨.root, [2]⟩]
  root := 3
  parents := #[some 1, some 2, some 3, none]
  valid := by decide +kernel

/-- What evaluation says about the two expressions. -/
theorem Sample.evaluated : CollisionFree twoSets oneSet ∧
    min ((SignatureTable.ofExpression twoSets).nodesWith (Signature.ofNode (.concept 1) [])).length
      ((SignatureTable.ofExpression oneSet).nodesWith (Signature.ofNode (.concept 1) [])).length =
        1 ∧
    (Mapping.ofExpressions twoSets oneSet {}).correspondence? 1 = some ⟨1, .exact⟩ := by
  decide +kernel

theorem Sample.collisionFree : CollisionFree twoSets oneSet :=
  Sample.evaluated.1

/-- One of the two reference nodes with the concept's signature is in an exact pair. -/
theorem exact_matching_maximum_twoSets :
    ((Mapping.ofExpressions Sample.twoSets Sample.oneSet {}).exactPairs
      (.ofExpression Sample.twoSets) (Signature.ofNode (.concept 1) [])).length = 1 := by
  rw [(exact_matching_maximum Sample.twoSets Sample.oneSet {} Sample.collisionFree).2.1]
  exact Sample.evaluated.2.1

theorem Levelled.carriesSubtree (hm : Levelled p m)
    (hrc : m.correspondence? r = some ⟨c, .exact⟩) :
    m.CarriesSubtree p.reference p.comparison r c := by
  obtain ⟨hr, hc⟩ := hm.fair.valid.lt_sizes (Mapping.comparisonFor?_eq_some_iff.2 ⟨_, hrc⟩)
  have hinto : ∀ x < p.reference.size, p.reference.InSubtree r x →
      ∃ y < p.comparison.size, p.comparison.InSubtree c y ∧
        m.correspondence? x = some ⟨y, .exact⟩ := by
    intro x hx hbelow
    refine induction_below (P := fun x => ∃ y < p.comparison.size, p.comparison.InSubtree c y ∧
      m.correspondence? x = some ⟨y, .exact⟩) ⟨c, hc, .inl rfl, hrc⟩ ?_ hx hbelow
    intro a x hx hpair
    obtain ⟨b, -, hb, hab⟩ := hpair
    obtain ⟨y, hy, hxy⟩ := (hm.carried a b hab).reference x hx
    exact ⟨y, (lt_size_of_mem_children hy).1, .inr ((isAncestor_of_mem_children hy).2 hb), hxy⟩
  have honto : ∀ y < p.comparison.size, p.comparison.InSubtree c y →
      ∃ x < p.reference.size, p.reference.InSubtree r x ∧
        m.correspondence? x = some ⟨y, .exact⟩ := by
    intro y hy hbelow
    refine induction_below (P := fun y => ∃ x < p.reference.size, p.reference.InSubtree r x ∧
      m.correspondence? x = some ⟨y, .exact⟩) ⟨r, hr, .inl rfl, hrc⟩ ?_ hy hbelow
    intro b y hy hpair
    obtain ⟨a, -, ha, hab⟩ := hpair
    obtain ⟨x, hx, hxy⟩ := (hm.carried a b hab).comparison y hy
    exact ⟨x, (lt_size_of_mem_children hx).1, .inr ((isAncestor_of_mem_children hx).2 ha), hxy⟩
  refine ⟨hinto, honto, fun _ _ _ => hm.fair.valid.injective, hm.fair.kinds, ?_⟩
  intro x x' y y' hx _ hxy hxy'
  have hxsize := (hm.fair.valid.lt_sizes hxy).1
  obtain ⟨z, -, -, hxz⟩ := hinto x hxsize hx
  obtain rfl : y = z := Option.some.inj
    (hxy.symm.trans (Mapping.comparisonFor?_eq_some_iff.2 ⟨_, hxz⟩))
  have hchildren := hm.carried x y hxz
  rw [parent?_eq_some_iff, parent?_eq_some_iff]
  constructor
  · intro hmem
    obtain ⟨w, hw, hpair⟩ := hchildren.reference x' hmem
    rw [Mapping.comparisonFor?_eq_some_iff.2 ⟨_, hpair⟩] at hxy'
    rwa [← Option.some.inj hxy']
  · intro hmem
    obtain ⟨w, hw, hpair⟩ := hchildren.comparison y' hmem
    rwa [hm.fair.valid.injective hxy' (Mapping.comparisonFor?_eq_some_iff.2 ⟨_, hpair⟩)]

/-- For all expressions and settings, without collisions: the children of an exact pair are exact
pairs with each other, and the pair carries its whole subtrees. -/
theorem exact_pair_carries_subtrees (reference comparison : Expression) (config : Config)
    (hfree : CollisionFree reference comparison) (r c : Nat)
    (hexact : (Mapping.ofExpressions reference comparison config).correspondence? r =
      some ⟨c, .exact⟩) :
    (∀ x ∈ reference.children r, ∃ y ∈ comparison.children c,
        (Mapping.ofExpressions reference comparison config).correspondence? x =
          some ⟨y, .exact⟩) ∧
      (∀ y ∈ comparison.children c, ∃ x ∈ reference.children r,
        (Mapping.ofExpressions reference comparison config).correspondence? x =
          some ⟨y, .exact⟩) ∧
      (Mapping.ofExpressions reference comparison config).CarriesSubtree
        reference comparison r c := by
  have hm := levelled_run (Problem.sound_ofExpressions config hfree)
  have hchildren := hm.carried r c hexact
  exact ⟨hchildren.reference, hchildren.comparison, hm.carriesSubtree hexact⟩

theorem exact_pair_carries_subtrees_twoSets :
    (Mapping.ofExpressions Sample.twoSets Sample.oneSet {}).CarriesSubtree
      Sample.twoSets Sample.oneSet 1 1 :=
  (exact_pair_carries_subtrees Sample.twoSets Sample.oneSet {} Sample.collisionFree 1 1
    Sample.evaluated.2.2).2.2

end Matching
end Concordance
