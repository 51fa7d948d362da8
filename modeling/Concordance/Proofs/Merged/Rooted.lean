import Concordance.Correlation
import Concordance.Proofs.ExactPairs
import Concordance.Proofs.Merged.Structure

/-!
# Merged graphs are rooted and acyclic

Every step down in a merged graph decreases a weight. An exact pair weighs as
much as its subtree has nodes; below it there are only exact pairs. All other
nodes weigh more than any exact pair, and less the deeper they are; the two
nodes of an approximate pair are equally deep, so it does not matter on which
side a step is taken.
-/
namespace Concordance

open Expression Matching

/-- What is merged when a problem is solved by a mapping. -/
def Matching.Problem.input (p : Problem) (m : Mapping) : Merged.Input :=
  ⟨p.reference, p.comparison, p.referenceTable, p.comparisonTable, m⟩

namespace Merged

/-- A merged graph is rooted and acyclic: it has no cycles along children, its root is the merged
node of both roots, and the root reaches the merged nodes and nothing else. -/
structure RootedAcyclic (m : Merged) (reference comparison : Expression) : Prop where
  acyclic : ∀ n, ¬ Relation.TransGen m.graph.Edge n n
  origin : ∃ q n, m.nodes.get? m.root = some n ∧
    n.origin = .shared reference.root comparison.root q
  referenceRoot : m.ofReference? reference.root = some m.root
  comparisonRoot : m.ofComparison? comparison.root = some m.root
  reached : ∀ n, n < m.size ↔ Relation.ReflTransGen m.graph.Edge m.root n

variable {p : Problem} {m : Mapping} {a b r c x y k n : Nat}

/-- More than the number of nodes of a subtree and the depth of a node add up to. -/
def weightBound (p : Problem) : Nat :=
  2 * p.reference.size + p.comparison.size + 1

/-- Weight of the merged node of an origin. -/
def weight (p : Problem) : Origin → Nat
  | .shared r _ .exact => p.reference.extent r
  | .shared r _ .approximate | .reference r => weightBound p - p.reference.depth r
  | .comparison c => weightBound p - p.comparison.depth c
  | .synthetic => 0

section Weight

variable (hm : Levelled p m)

include hm

theorem weight_referenceOrigin_of_exact (h : m.correspondence? r = some ⟨c, .exact⟩) :
    weight p ((p.input m).referenceOrigin r) = p.reference.extent r := by
  rw [Input.referenceOrigin_of_some (i := p.input m) hm.fair.valid h]
  rfl

theorem weight_referenceOrigin (h : ∀ c, m.correspondence? r ≠ some ⟨c, .exact⟩) :
    weight p ((p.input m).referenceOrigin r) = weightBound p - p.reference.depth r := by
  cases hr : m.correspondence? r with
  | none =>
    rw [Input.referenceOrigin_of_none (i := p.input m) hr]
    rfl
  | some found =>
    obtain ⟨c, q⟩ := found
    rw [Input.referenceOrigin_of_some (i := p.input m) hm.fair.valid hr]
    cases q with
    | exact => exact absurd hr (h c)
    | approximate => rfl

theorem comparisonOrigin_of_pair (h : m.comparisonFor? r = some c) :
    (p.input m).comparisonOrigin c = (p.input m).referenceOrigin r := by
  have hc : (p.input m).mapping.referenceFor? c = some r := (hm.fair.valid.agree r c).1 h
  rw [Input.comparisonOrigin, hc]

theorem weight_comparisonOrigin (h : ∀ r, m.correspondence? r ≠ some ⟨c, .exact⟩) :
    weight p ((p.input m).comparisonOrigin c) = weightBound p - p.comparison.depth c := by
  cases hc : m.referenceFor? c with
  | none =>
    rw [Input.comparisonOrigin_of_none (i := p.input m) hc]
    rfl
  | some r =>
    have hr := (hm.fair.valid.agree r c).2 hc
    obtain ⟨q, hq⟩ := Mapping.comparisonFor?_eq_some_iff.1 hr
    cases q with
    | exact => exact absurd hq (h r)
    | approximate =>
      rw [comparisonOrigin_of_pair hm hr, weight_referenceOrigin hm (by simp [hq]),
        (hm.approximate r c hq).2]

theorem weight_reference_child_lt (hx : x ∈ p.reference.children r) :
    weight p ((p.input m).referenceOrigin x) < weight p ((p.input m).referenceOrigin r) := by
  obtain ⟨hxsize, hrsize⟩ := lt_size_of_mem_children hx
  by_cases hr : ∃ c, m.correspondence? r = some ⟨c, .exact⟩
  · obtain ⟨c, hc⟩ := hr
    obtain ⟨y, -, hy⟩ := (hm.carried r c hc).reference x hx
    rw [weight_referenceOrigin_of_exact hm hc, weight_referenceOrigin_of_exact hm hy]
    exact extent_lt_of_mem_children hx
  · rw [weight_referenceOrigin hm fun c hc => hr ⟨c, hc⟩]
    have hrdepth := depth_lt_size hrsize
    have hxdepth := depth_of_mem_children hx
    by_cases hxr : ∃ y, m.correspondence? x = some ⟨y, .exact⟩
    · obtain ⟨y, hy⟩ := hxr
      have hextent := extent_le_size hxsize
      rw [weight_referenceOrigin_of_exact hm hy, weightBound]
      omega
    · rw [weight_referenceOrigin hm fun y hy => hxr ⟨y, hy⟩, weightBound]
      omega

theorem weight_comparison_child_lt (hy : y ∈ p.comparison.children c) :
    weight p ((p.input m).comparisonOrigin y) < weight p ((p.input m).comparisonOrigin c) := by
  obtain ⟨hysize, hcsize⟩ := lt_size_of_mem_children hy
  have hexact : ∀ x y, m.correspondence? x = some ⟨y, .exact⟩ →
      weight p ((p.input m).comparisonOrigin y) = p.reference.extent x := by
    intro x y hxy
    rw [comparisonOrigin_of_pair hm (Mapping.comparisonFor?_eq_some_iff.2 ⟨_, hxy⟩),
      weight_referenceOrigin_of_exact hm hxy]
  by_cases hc : ∃ r, m.correspondence? r = some ⟨c, .exact⟩
  · obtain ⟨r, hr⟩ := hc
    obtain ⟨x, hx, hxy⟩ := (hm.carried r c hr).comparison y hy
    rw [hexact r c hr, hexact x y hxy]
    exact extent_lt_of_mem_children hx
  · rw [weight_comparisonOrigin hm fun r hr => hc ⟨r, hr⟩]
    have hcdepth := depth_lt_size hcsize
    have hydepth := depth_of_mem_children hy
    by_cases hyx : ∃ x, m.correspondence? x = some ⟨y, .exact⟩
    · obtain ⟨x, hx⟩ := hyx
      have hxsize := (hm.fair.valid.lt_sizes (Mapping.comparisonFor?_eq_some_iff.2 ⟨_, hx⟩)).1
      have hextent := extent_le_size hxsize
      rw [hexact x y hx, weightBound]
      omega
    · rw [weight_comparisonOrigin hm fun x hx => hyx ⟨x, hx⟩, weightBound]
      omega

/-- The merged graph of a levelled mapping has no cycles. -/
theorem acyclic_build_of_levelled (n : Nat) :
    ¬ Relation.TransGen (build (p.input m)).graph.Edge n n := by
  have hi : (p.input m).Paired := hm.fair.valid
  refine acyclic_build hi (fun k => ((p.input m).origins[k]?.map (weight p)).getD 0) ?_ n
  intro a b hbelow
  rcases (Input.below_iff hi).1 hbelow with ⟨r, x, hx, ha, hb⟩ | ⟨c, y, hy, ha, hb⟩
  · rw [ha, hb]
    exact weight_reference_child_lt hm hx
  · rw [ha, hb]
    exact weight_comparison_child_lt hm hy

end Weight

section Reachability

variable {i : Input} (hi : i.Paired)
  (hroots : i.mapping.comparisonFor? i.reference.root = some i.comparison.root)

include hi

theorem referenceIndex_root :
    i.referenceIndex[i.reference.root]?.getD none = some (build i).root := by
  obtain ⟨k, hk⟩ := Input.exists_referenceIndex hi i.reference.root_lt_size
  have hroot : (build i).root = (i.referenceIndex[i.reference.root]?.getD none).getD 0 := rfl
  rw [hroot, hk]
  rfl

theorem getElem?_origins_root :
    i.origins[(build i).root]? = some (i.referenceOrigin i.reference.root) :=
  (Input.referenceIndex_eq_some_iff hi i.reference.root_lt_size).1 (referenceIndex_root hi)

theorem root_lt_size : (build i).root < (build i).size := by
  exact lt_size_of_lt (List.getElem?_eq_some_iff.1 (getElem?_origins_root hi)).1

theorem reachable_reference (hr : r < i.reference.size)
    (hk : i.referenceIndex[r]?.getD none = some k) :
    Relation.ReflTransGen (build i).graph.Edge (build i).root k := by
  induction r, hr using induction_down generalizing k with
  | root =>
    rw [referenceIndex_root hi] at hk
    rw [Option.some.inj hk]
  | child r x hx ih =>
    obtain ⟨hxsize, hrsize⟩ := lt_size_of_mem_children hx
    obtain ⟨j, hj⟩ := Input.exists_referenceIndex hi hrsize
    refine (ih hj).trans (reflTransGen_of_below ((Input.below_iff hi).2 (.inl ⟨r, x, hx, ?_, ?_⟩)))
    · exact (Input.referenceIndex_eq_some_iff hi hrsize).1 hj
    · exact (Input.referenceIndex_eq_some_iff hi hxsize).1 hk

include hroots

theorem comparisonIndex_root :
    i.comparisonIndex[i.comparison.root]?.getD none = some (build i).root := by
  rw [Input.comparisonIndex_of_pair hi hroots, referenceIndex_root hi]

/-- The root of the merged graph is the pair of the two roots. -/
theorem origin_root : ∃ q n, (build i).nodes.get? (build i).root = some n ∧
    n.origin = .shared i.reference.root i.comparison.root q := by
  obtain ⟨q, hq⟩ := Mapping.comparisonFor?_eq_some_iff.1 hroots
  obtain ⟨n, hn, horigin, -⟩ := exists_node_of_origin (getElem?_origins_root hi)
  exact ⟨q, n, hn, by rw [horigin, Input.referenceOrigin_of_some hi hq]⟩

theorem reachable_comparison (hc : c < i.comparison.size)
    (hk : i.comparisonIndex[c]?.getD none = some k) :
    Relation.ReflTransGen (build i).graph.Edge (build i).root k := by
  induction c, hc using induction_down generalizing k with
  | root =>
    rw [comparisonIndex_root hi hroots] at hk
    rw [Option.some.inj hk]
  | child c y hy ih =>
    obtain ⟨hysize, hcsize⟩ := lt_size_of_mem_children hy
    obtain ⟨j, hj⟩ := Input.exists_comparisonIndex hi hcsize
    refine (ih hj).trans (reflTransGen_of_below ((Input.below_iff hi).2 (.inr ⟨c, y, hy, ?_, ?_⟩)))
    · exact (Input.comparisonIndex_eq_some_iff hi hcsize).1 hj
    · exact (Input.comparisonIndex_eq_some_iff hi hysize).1 hk

/-- The root reaches every merged node if the two roots are a pair. -/
theorem reachable_build (hn : n < (build i).size) :
    Relation.ReflTransGen (build i).graph.Edge (build i).root n := by
  have hlisted : ∀ k < i.origins.length,
      Relation.ReflTransGen (build i).graph.Edge (build i).root k := by
    intro k hk
    have ho := List.getElem?_eq_getElem hk
    have hmem := List.mem_of_getElem? ho
    rcases (Input.mem_origins hi).1 hmem with ⟨r, hr, heq⟩ | ⟨c, hc, hfree, heq⟩
    · rw [heq] at ho
      exact reachable_reference hi hr ((Input.referenceIndex_eq_some_iff hi hr).2 ho)
    · rw [heq, ← Input.comparisonOrigin_of_none hfree] at ho
      exact reachable_comparison hi hroots hc ((Input.comparisonIndex_eq_some_iff hi hc).2 ho)
  by_cases hk : n < i.origins.length
  · exact hlisted n hk
  · obtain ⟨a, ha, hedge⟩ := exists_owner (Nat.not_lt.1 hk) hn
    exact (hlisted a ha).tail hedge

end Reachability

/-- For all expressions and settings, without collisions, the merged graph is rooted and acyclic. -/
theorem merged_rooted_acyclic (reference comparison : Expression) (config : Config)
    (hfree : CollisionFree reference comparison) :
    (Correlation.ofExpressions reference comparison config).merged.RootedAcyclic
      reference comparison := by
  have hp := Problem.sound_ofExpressions config hfree
  have hm := levelled_run hp
  have hroots := comparisonFor?_root_run hp.toOwn
  have hi : ((Problem.ofExpressions reference comparison config).input
      (run (.ofExpressions reference comparison config)).mapping).Paired := hm.fair.valid
  have hmerged : (Correlation.ofExpressions reference comparison config).merged =
      build ((Problem.ofExpressions reference comparison config).input
        (run (.ofExpressions reference comparison config)).mapping) := rfl
  rw [hmerged]
  refine ⟨acyclic_build_of_levelled hm, origin_root hi hroots, referenceIndex_root hi,
    comparisonIndex_root hi hroots, fun n => ⟨reachable_build hi hroots, fun hpath => ?_⟩⟩
  rcases Relation.ReflTransGen.cases_tail hpath with heq | ⟨a, -, hedge⟩
  · rw [heq]
    exact root_lt_size hi
  · exact lt_size_of_edge hi hedge

/-- What evaluation says about the correlation of the two expressions. -/
theorem Sample.correlated :
    (Correlation.ofExpressions Sample.twoSets Sample.oneSet {}).merged.size = 7 ∧
      (Correlation.ofExpressions Sample.twoSets Sample.oneSet {}).difference.deletionOrigins =
        [2, 3] := by
  decide +kernel

/-- Six nodes of the first expression and a conjunction below the shared set. -/
theorem merged_rooted_acyclic_twoSets :
    (Correlation.ofExpressions Sample.twoSets Sample.oneSet {}).merged.size = 7 ∧
      (Correlation.ofExpressions Sample.twoSets Sample.oneSet {}).merged.RootedAcyclic
        Sample.twoSets Sample.oneSet :=
  ⟨Sample.correlated.1,
    merged_rooted_acyclic Sample.twoSets Sample.oneSet {} Sample.collisionFree⟩

end Merged
end Concordance
