import Concordance.Correlation
import Concordance.Proofs.Merged.Children
import Concordance.Proofs.Views

/-!
# Numbering of merged nodes

A merged graph lists the reference nodes in post-order, then the comparison nodes
that are in no pair in post-order, then the conjunctions by ascending owner. The
nodes of a pair have one merged node, and every other node has one of its own, so
the index maps between an expression and the merged graph are inverse to each
other and the merged graph is as large as both expressions without the pairs,
with the conjunctions.
-/
namespace Concordance

/-- Merged nodes of all nodes of a side. -/
def Merged.indexMap (m : Merged) (side : Side) : List (Nat × Nat) :=
  side.pick m.referenceToMerged m.comparisonToMerged

namespace Correlation

/-- Merged node of a node of a side. -/
def toMerged? (c : Correlation) (side : Side) (n : Nat) : Option Nat :=
  side.pick (c.referenceToMerged? n) (c.comparisonToMerged? n)

/-- Node of a side that a merged node stands for. -/
def ofMerged? (c : Correlation) (side : Side) (k : Nat) : Option Nat :=
  side.pick (c.mergedToReference? k) (c.mergedToComparison? k)

end Correlation

namespace Merged

open Expression Matching

variable {i : Input} {side : Side} {n k a b s t : Nat} {o : Origin}

/-- How the nodes of a merged graph are numbered, and that no node of the two expressions is lost or
doubled. -/
structure Input.Numbers (i : Input) (c : Correlation) : Prop where
  reference_first : ∀ k r, i.reference.postOrder[k]? = some r → c.referenceToMerged? r = some k
  comparison_next : ∀ k x,
    (i.comparison.postOrder.filter fun x => !i.mapping.hasComparison x)[k]? = some x →
      c.comparisonToMerged? x = some (i.reference.size + k)
  synthetic_last : ∀ k v, c.merged.nodes.get? k = some v →
    (v.origin = .synthetic ↔ i.reference.size +
      (i.comparison.postOrder.filter fun x => !i.mapping.hasComparison x).length ≤ k)
  /-- Conjunctions have one owner each, and are in the order of their owners. -/
  synthetic_owned : ∀ s v, c.merged.nodes.get? s = some v → v.origin = .synthetic →
    ∃ a, c.merged.parents s = [a]
  synthetic_ascending : ∀ s t v w, c.merged.nodes.get? s = some v → v.origin = .synthetic →
    c.merged.nodes.get? t = some w → w.origin = .synthetic → s < t →
      ∀ a ∈ c.merged.parents s, ∀ b ∈ c.merged.parents t, a < b
  indexed : ∀ k v, c.merged.nodes.get? k = some v → v.index = k
  shared : ∀ r x q, (∃ k v, c.merged.nodes.get? k = some v ∧ v.origin = .shared r x q) ↔
    i.mapping.correspondence? r = some ⟨x, q⟩
  alone : ∀ side n, (∃ k v, c.merged.nodes.get? k = some v ∧
      v.origin = side.pick (.reference n) (.comparison n)) ↔
    n < (i.tree side).size ∧ ∀ q, ¬ i.mapping.InPair side q n
  inverse : ∀ side n k, c.toMerged? side n = some k ↔ c.ofMerged? side k = some n
  /-- The index map of a side lists every node of the side, ascending. -/
  listed : ∀ side, (c.merged.indexMap side).map Prod.fst = List.range (i.tree side).size ∧
    ∀ n k, (n, k) ∈ c.merged.indexMap side ↔ c.toMerged? side n = some k
  size : c.merged.size + i.mapping.size =
    i.reference.size + i.comparison.size + c.merged.syntheticCount

theorem mem_indexPairs {table : Array (Option Nat)} :
    (n, k) ∈ indexPairs table ↔ table[n]?.getD none = some k := by
  rw [indexPairs, List.mem_filterMap]
  constructor
  · rintro ⟨x, -, hx⟩
    obtain ⟨y, hy, heq⟩ := Option.map_eq_some_iff.1 hx
    obtain ⟨rfl, rfl⟩ := Prod.mk.inj heq
    exact hy
  · intro h
    have hn : n < table.size := by
      by_contra hn
      rw [Array.getElem?_eq_none (Nat.not_lt.1 hn)] at h
      cases h
    exact ⟨n, List.mem_range.2 hn, by rw [h, Option.map_some]⟩

theorem map_fst_indexPairs {table : Array (Option Nat)}
    (h : ∀ n < table.size, ∃ k, table[n]?.getD none = some k) :
    (indexPairs table).map Prod.fst = List.range table.size := by
  rw [indexPairs, List.map_filterMap]
  refine (List.filterMap_congr ?_).trans List.filterMap_some
  intro n hn
  obtain ⟨k, hk⟩ := h n (List.mem_range.1 hn)
  rw [hk]
  rfl

theorem size_indexTable (size : Nat) (node? : Origin → Option Nat) (origins : List Origin) :
    (Input.indexTable size node? origins).size = size := by
  rw [indexTable_eq, Tables.size_setAll, Array.size_replicate]

namespace Input

/-- Table of the merged indices of a side. -/
def index (i : Input) (side : Side) : Array (Option Nat) :=
  side.pick i.referenceIndex i.comparisonIndex

theorem size_index (i : Input) (side : Side) : (i.index side).size = (i.tree side).size := by
  cases side with
  | reference => exact size_indexTable _ _ _
  | comparison => exact size_indexTable _ _ _

theorem image?_build (i : Input) (side : Side) (n : Nat) :
    (build i).image? side n = (i.index side)[n]?.getD none := by
  cases side <;> rfl

theorem indexMap_build (i : Input) (side : Side) :
    (build i).indexMap side = indexPairs (i.index side) := by
  cases side <;> rfl

theorem lt_size_of_image? (h : (build i).image? side n = some k) : n < (i.tree side).size := by
  rw [← size_index]
  by_contra hn
  rw [image?_build, Array.getElem?_eq_none (Nat.not_lt.1 hn)] at h
  cases h

end Input

section Paired

variable (hi : i.Paired)

include hi

theorem map_fst_indexMap (side : Side) :
    ((build i).indexMap side).map Prod.fst = List.range (i.tree side).size := by
  rw [Input.indexMap_build, map_fst_indexPairs, Input.size_index]
  intro n hn
  rw [Input.size_index] at hn
  rw [← Input.image?_build]
  exact Input.exists_image? hi hn

/-- A node is behind a merged node if and only if that is its place. -/
theorem node?_build_iff :
    ((build i).nodes.get? k).bind (·.origin.node? side) = some n ↔ i.Place side n k := by
  rw [Option.bind_eq_some_iff]
  constructor
  · rintro ⟨v, hv, hn⟩
    exact Input.place_of_node? hi hv hn
  · intro hplace
    obtain ⟨v, hv, horigin, -⟩ := exists_node_of_origin hplace
    exact ⟨v, hv, by rw [horigin, Input.node?_origin hi]⟩

theorem image?_eq_some_iff_node? : (build i).image? side n = some k ↔
    ((build i).nodes.get? k).bind (·.origin.node? side) = some n := by
  rw [node?_build_iff hi]
  constructor
  · intro h
    exact (Input.image?_eq_some_iff hi (Input.lt_size_of_image? h)).1 h
  · intro h
    exact (Input.image?_eq_some_iff hi (h.lt_size hi)).2 h

/-- An origin other than a conjunction is that of a merged node if and only if it is listed. -/
theorem exists_node_iff (ho : o ≠ .synthetic) :
    (∃ k v, (build i).nodes.get? k = some v ∧ v.origin = o) ↔ o ∈ i.origins := by
  constructor
  · rintro ⟨k, v, hv, rfl⟩
    exact List.mem_of_getElem? (getElem?_origins_of_node hi hv ho)
  · intro hmem
    obtain ⟨k, hk⟩ := List.mem_iff_getElem?.1 hmem
    obtain ⟨v, hv, horigin, -⟩ := exists_node_of_origin hk
    exact ⟨k, v, hv, horigin⟩

theorem shared_mem_origins_iff {r x : Nat} {q : Quality} :
    Origin.shared r x q ∈ i.origins ↔ i.mapping.correspondence? r = some ⟨x, q⟩ := by
  constructor
  · intro hmem
    obtain ⟨-, horigin⟩ := Input.eq_referenceOrigin hi hmem rfl
    cases hr : i.mapping.correspondence? r with
    | none =>
      rw [Input.referenceOrigin_of_none hr] at horigin
      cases horigin
    | some found =>
      rw [Input.referenceOrigin_of_some hi hr] at horigin
      cases horigin
      rfl
  · intro hpair
    rw [← Input.referenceOrigin_of_some hi hpair]
    exact Input.referenceOrigin_mem hi
      (hi.lt_sizes (Mapping.comparisonFor?_eq_some_iff.2 ⟨q, hpair⟩)).1

theorem alone_mem_origins_iff : side.pick (Origin.reference n) (.comparison n) ∈ i.origins ↔
    n < (i.tree side).size ∧ ∀ q, ¬ i.mapping.InPair side q n := by
  constructor
  · intro hmem
    have hnode : (side.pick (Origin.reference n) (.comparison n)).node? side = some n := by
      cases side <;> rfl
    obtain ⟨hn, horigin⟩ := Input.eq_origin hi hmem hnode
    refine ⟨hn, ?_⟩
    rcases Input.origin_cases hi side n with ⟨r, c, q, -, -, hshared⟩ | ⟨hfree, -⟩
    · rw [hshared] at horigin
      cases side <;> cases horigin
    · exact hfree
  · rintro ⟨hn, hfree⟩
    obtain ⟨k, hk⟩ := Input.exists_place hi side hn
    rw [← Input.origin_of_unpaired hi hfree]
    exact List.mem_of_getElem? hk

/-- The owner of a conjunction is the only node above it, and its place among the overfull nodes is
that of the conjunction behind all other nodes. -/
theorem exists_owner_of_synthetic {v : MergedNode} (hv : (build i).nodes.get? s = some v)
    (hsynthetic : v.origin = .synthetic) : ∃ a, (build i).parents s = [a] ∧
      s = i.origins.length + (i.numbered.joinedNodes.take a).countP isOverfull := by
  have hs : i.origins.length ≤ s := by
    by_contra hs
    exact (lt_length_iff hi hv).1 (Nat.not_le.1 hs) hsynthetic
  obtain ⟨a, o, ho, hfull, howner, -⟩ := get?_build_of_le hs hv
  exact ⟨a, parents_conjunction hi ho hfull hs howner, eq_of_owner ho hfull howner⟩

theorem owners_ascending {v w : MergedNode} (hv : (build i).nodes.get? s = some v)
    (hvs : v.origin = .synthetic) (hw : (build i).nodes.get? t = some w)
    (hws : w.origin = .synthetic) (hst : s < t) :
    ∀ a ∈ (build i).parents s, ∀ b ∈ (build i).parents t, a < b := by
  obtain ⟨a, ha, hsa⟩ := exists_owner_of_synthetic hi hv hvs
  obtain ⟨b, hb, htb⟩ := exists_owner_of_synthetic hi hw hws
  rw [ha, hb]
  intro x hx y hy
  rw [List.mem_singleton.1 hx, List.mem_singleton.1 hy]
  by_contra hle
  have hmono : (i.numbered.joinedNodes.take b).countP isOverfull ≤
      (i.numbered.joinedNodes.take a).countP isOverfull :=
    (List.take_prefix_take_left (Nat.not_lt.1 hle)).sublist.countP_le
  omega

omit hi in
theorem place_reference_of_postOrder {r : Nat} (hr : i.reference.postOrder[k]? = some r) :
    i.Place .reference r k := by
  have hk : k < i.referenceOrigins.length := by
    rw [Input.referenceOrigins, List.length_map]
    exact (List.getElem?_eq_some_iff.1 hr).1
  show i.origins[k]? = some (i.referenceOrigin r)
  rw [Input.origins, List.getElem?_append_left hk, Input.referenceOrigins, List.getElem?_map, hr,
    Option.map_some]

theorem place_comparison_of_postOrder {x : Nat}
    (hx : (i.comparison.postOrder.filter fun x => !i.mapping.hasComparison x)[k]? = some x) :
    i.Place .comparison x (i.reference.size + k) := by
  have hlength : i.referenceOrigins.length = i.reference.size := by
    rw [Input.referenceOrigins, List.length_map, i.reference.postOrder_perm.length_eq,
      List.length_range]
  have hfree : i.mapping.referenceFor? x = none := by
    have hmem := List.of_mem_filter (List.mem_of_getElem? hx)
    rwa [Bool.not_eq_true', Mapping.hasComparison_eq_false_iff] at hmem
  show i.origins[i.reference.size + k]? = some (i.comparisonOrigin x)
  rw [Input.origins, List.getElem?_append_right (by omega), hlength, Nat.add_sub_cancel_left,
    Input.comparisonOrigins_eq hi, List.getElem?_map, hx, Option.map_some,
    Input.comparisonOrigin_of_none hfree]

omit hi in
theorem index_of_get? {v : MergedNode} (hv : (build i).nodes.get? k = some v) : v.index = k := by
  by_cases hk : k < i.origins.length
  · rcases get?_build_of_origin (List.getElem?_eq_getElem hk) with
      ⟨-, hnode⟩ | ⟨-, s, -, hnode, -⟩ <;>
    · obtain rfl := Option.some.inj (hv.symm.trans hnode)
      rfl
  · obtain ⟨owner, o, -, -, -, rfl⟩ := get?_build_of_le (Nat.not_lt.1 hk) hv
    rfl

end Paired

/-- For every mapping that pairs nodes of the two expressions: the merged nodes are numbered in the
order of the walks, every node of either expression is behind one merged node, which the index maps
find in both directions, and only the nodes of a pair are behind the same one. -/
theorem build_numbers_nodes (i : Input) (hi : i.Paired) (c : Correlation)
    (hc : c.merged = build i) : i.Numbers c := by
  have hto : ∀ side n, c.toMerged? side n = (build i).image? side n := by
    intro side n
    cases side <;> simp [Correlation.toMerged?, Correlation.referenceToMerged?,
      Correlation.comparisonToMerged?, image?, Side.pick, hc]
  have hfrom : ∀ side k,
      c.ofMerged? side k = ((build i).nodes.get? k).bind (·.origin.node? side) := by
    intro side k
    cases side <;> simp [Correlation.ofMerged?, Correlation.mergedToReference?,
      Correlation.mergedToComparison?, Origin.node?, Side.pick, hc]
  have hplace : ∀ side n k, i.Place side n k → c.toMerged? side n = some k := by
    intro side n k h
    rw [hto, Input.image?_eq_some_iff hi (h.lt_size hi)]
    exact h
  refine ⟨?_, ?_, ?_, ?_, ?_, ?_, ?_, ?_, ?_, ?_, ?_⟩
  · intro k r hr
    exact hplace .reference r _ (place_reference_of_postOrder hr)
  · intro k x hx
    exact hplace .comparison x _ (place_comparison_of_postOrder hi hx)
  · intro k v hv
    rw [hc] at hv
    rw [← length_origins hi, ← Nat.not_lt, lt_length_iff hi hv, not_not]
  · intro s v hv hsynthetic
    rw [hc] at hv ⊢
    obtain ⟨a, ha, -⟩ := exists_owner_of_synthetic hi hv hsynthetic
    exact ⟨a, ha⟩
  · intro s t v w hv hvs hw hws hst
    rw [hc] at hv hw ⊢
    exact owners_ascending hi hv hvs hw hws hst
  · intro k v hv
    rw [hc] at hv
    exact index_of_get? hv
  · intro r x q
    rw [hc, exists_node_iff hi (by simp), shared_mem_origins_iff hi]
  · intro side n
    rw [hc, exists_node_iff hi (by cases side <;> simp [Side.pick]), alone_mem_origins_iff hi]
  · intro side n k
    rw [hto, hfrom, image?_eq_some_iff_node? hi]
  · intro side
    rw [hc]
    refine ⟨map_fst_indexMap hi side, fun n k => ?_⟩
    rw [hto, Input.indexMap_build, mem_indexPairs, Input.image?_build]
  · have hsplit := hi.size_add_openComparison
    rw [hc, size_build hi, length_origins hi, (i.comparison.postOrder_perm.filter _).length_eq]
    omega

/-- What a run pairs can be merged, whatever the signatures are. -/
theorem paired_run (reference comparison : Expression) (config : Config) :
    ((Problem.ofExpressions reference comparison config).input
      (run (.ofExpressions reference comparison config)).mapping).Paired :=
  (fair_run (Problem.own_ofExpressions reference comparison config)).valid

/-- Six nodes of the first expression and a conjunction: all nodes of the second one are in pairs. -/
theorem build_numbers_nodes_twoSets :
    (Correlation.ofExpressions Sample.twoSets Sample.oneSet {}).merged.size = 7 ∧
      ((Problem.ofExpressions Sample.twoSets Sample.oneSet {}).input
        (run (.ofExpressions Sample.twoSets Sample.oneSet {})).mapping).Numbers
          (.ofExpressions Sample.twoSets Sample.oneSet {}) :=
  ⟨Sample.correlated.1, build_numbers_nodes _ (paired_run _ _ _) _ (merged_ofExpressions _ _ _)⟩

end Merged
end Concordance
