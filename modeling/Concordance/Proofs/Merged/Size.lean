import Concordance.Proofs.Merged.Structure

/-!
# The size of a merged graph

A merged graph has a node for every reference node, one for every comparison
node that is in no pair, and a conjunction for every overfull node. A pair whose
comparison children are all partners of its reference children has no more
children than its reference node, so it is not overfull.
-/
namespace Concordance.Merged

open Expression

theorem length_conjunctions (next : Nat) (ns : List MergedNode) :
    (conjoin next ns).2.length = ns.countP isOverfull := by
  induction ns generalizing next with
  | nil => rfl
  | cons n ns ih =>
    rw [conjoin]
    split
    · rename_i hfull
      rw [List.length_cons, ih, List.countP_cons_of_pos hfull]
    · rename_i hfull
      rw [ih, List.countP_cons_of_neg hfull]

theorem map_origin_owners (next : Nat) (ns : List MergedNode) :
    (conjoin next ns).1.map (·.origin) = ns.map (·.origin) := by
  induction ns generalizing next with
  | nil => rfl
  | cons n ns ih =>
    rw [conjoin]
    split
    · rw [List.map_cons, List.map_cons, ih]
    · rw [List.map_cons, List.map_cons, ih]

theorem origin_of_mem_conjunctions {next : Nat} {ns : List MergedNode} {d : MergedNode}
    (h : d ∈ (conjoin next ns).2) : d.origin = .synthetic := by
  obtain ⟨j, hj⟩ := List.mem_iff_getElem?.1 h
  obtain ⟨a, n, -, -, -, rfl⟩ := conjoin_conjunction hj
  rfl

variable {i : Input} {r c a : Nat} {q : Quality}

theorem toList_build (i : Input) : (build i).nodes.toList =
    (conjoin i.origins.length i.numbered.joinedNodes).1 ++
      (conjoin i.origins.length i.numbered.joinedNodes).2 := by
  rw [← length_joinedNodes]
  rfl

theorem map_origin_joinedNodes (i : Input) :
    i.numbered.joinedNodes.map (·.origin) = i.origins := by
  rw [Numbered.joinedNodes, List.map_map]
  exact List.zipIdx_map_fst 0 i.origins

theorem synthetic_notMem_origins (hi : i.Paired) : Origin.synthetic ∉ i.origins := by
  intro h
  rcases (Input.mem_origins hi).1 h with ⟨r, -, heq⟩ | ⟨c, -, -, heq⟩
  · have hr := i.reference?_referenceOrigin r
    rw [← heq] at hr
    simp [Origin.reference?] at hr
  · simp at heq

/-- There is a conjunction for every overfull node. -/
theorem syntheticCount_build (hi : i.Paired) :
    (build i).syntheticCount = i.numbered.joinedNodes.countP isOverfull := by
  have howners : (conjoin i.origins.length i.numbered.joinedNodes).1.countP
      (fun n => n.origin = .synthetic) = 0 := by
    rw [List.countP_eq_zero]
    intro n hn hsynthetic
    apply synthetic_notMem_origins hi
    rw [← map_origin_joinedNodes, ← map_origin_owners i.origins.length,
      ← of_decide_eq_true hsynthetic]
    exact List.mem_map_of_mem hn
  have hconjunctions : (conjoin i.origins.length i.numbered.joinedNodes).2.countP
      (fun n => n.origin = .synthetic) =
        (conjoin i.origins.length i.numbered.joinedNodes).2.length := by
    rw [List.countP_eq_length]
    intro d hd
    exact decide_eq_true (origin_of_mem_conjunctions hd)
  rw [syntheticCount, toList_build, List.countP_append, howners, hconjunctions,
    length_conjunctions, Nat.zero_add]

theorem size_build (hi : i.Paired) :
    (build i).size = i.origins.length + (build i).syntheticCount := by
  rw [size, ← Arena.length_toList, toList_build, List.length_append, length_conjoin,
    length_joinedNodes, length_conjunctions, syntheticCount_build hi]

/-- The nodes that stand behind an origin of their own are the unmatched ones. -/
theorem Input.comparisonOrigins_eq (hi : i.Paired) : i.comparisonOrigins =
    (i.comparison.postOrder.filter fun c => !i.mapping.hasComparison c).map .comparison := by
  have hfree : ∀ c, (!(i.reference.postOrder.filterMap i.mapping.comparisonFor?).contains c) =
      !i.mapping.hasComparison c := by
    intro c
    congr 1
    rw [Bool.eq_iff_iff, List.contains_iff_mem, Input.mem_filterMap_comparisonFor? hi,
      Mapping.hasComparison_iff]
  rw [Input.comparisonOrigins, Input.filterMap_comparison?_referenceOrigins hi,
    List.filter_congr fun c _ => hfree c]

/-- Every reference node has its origin, and so has every comparison node that is in no pair. -/
theorem length_origins (hi : i.Paired) : i.origins.length = i.reference.size +
    (i.comparison.postOrder.filter fun c => !i.mapping.hasComparison c).length := by
  rw [Input.origins, List.length_append, Input.referenceOrigins, List.length_map,
    i.reference.postOrder_perm.length_eq, List.length_range, Input.comparisonOrigins_eq hi,
    List.length_map]

theorem union_eq_left {xs ys : List Nat} (h : ∀ y ∈ ys, y ∈ xs) : union xs ys = xs := by
  induction ys with
  | nil => rfl
  | cons y ys ih =>
    rw [union, List.foldl_cons, if_pos (h y List.mem_cons_self)]
    exact ih fun z hz => h z (List.mem_cons_of_mem y hz)

section Corresponding

variable (hi : i.Paired) (ho : i.origins[a]? = some (.shared r c q))
  (hchildren : ∀ y ∈ i.comparison.children c, ∃ x ∈ i.reference.children r,
    i.mapping.comparisonFor? x = some y)

include hi ho hchildren

/-- If the comparison children are partners of the reference children, they add nothing. -/
theorem joinedChildren_of_corresponding : i.numbered.joinedChildren a (.shared r c q) =
    indicesOf i.referenceIndex (i.reference.children r) := by
  have hmem := List.mem_of_getElem? ho
  obtain ⟨hr, hreference⟩ := Input.eq_referenceOrigin hi hmem rfl
  obtain ⟨hc, hcomparison⟩ := Input.eq_comparisonOrigin hi hmem rfl
  have hrindex : i.referenceIndex[r]?.getD none = some a :=
    (Input.referenceIndex_eq_some_iff hi hr).2 (hreference ▸ ho)
  have hcindex : i.comparisonIndex[c]?.getD none = some a :=
    (Input.comparisonIndex_eq_some_iff hi hc).2 (hcomparison ▸ ho)
  have hunion : i.numbered.joinedChildren a (.shared r c q) =
      union (indicesOf i.referenceIndex (i.reference.children r))
        (indicesOf i.comparisonIndex (i.comparison.children c)) := by
    simp [Numbered.joinedChildren, Input.numbered, Origin.reference?, Origin.comparison?, hrindex,
      hcindex]
  rw [hunion]
  apply union_eq_left
  intro b hb
  obtain ⟨y, hy, hindex⟩ := mem_indicesOf.1 hb
  obtain ⟨x, hx, hxy⟩ := hchildren y hy
  rw [Input.comparisonIndex_of_pair hi hxy] at hindex
  exact mem_indicesOf.2 ⟨x, hx, hindex⟩

/-- So the pair is not overfull: its reference node has no more children than its kind admits. -/
theorem isOverfull_of_corresponding :
    isOverfull (i.numbered.joinedNode a (.shared r c q)) = false := by
  obtain ⟨hr, -⟩ := Input.eq_referenceOrigin hi (List.mem_of_getElem? ho) rfl
  obtain ⟨k, hk⟩ := exists_kind? hr
  have hkind : (i.numbered.joinedNode a (.shared r c q)).kind = k := by
    show (i.reference.kind? r).getD .conjunction = k
    rw [hk]
    rfl
  have hlength : (i.numbered.joinedNode a (.shared r c q)).children.length ≤
      (i.reference.children r).length := by
    show (i.numbered.joinedChildren a (.shared r c q)).length ≤ _
    rw [joinedChildren_of_corresponding hi ho hchildren]
    exact List.length_filterMap_le _ _
  rw [isOverfull, hkind, Bool.and_eq_false_iff]
  by_cases hsingle : k.arity = .single
  · have hadmits := admits_children hk
    rw [hsingle, Arity.admits, beq_iff_eq] at hadmits
    exact .inr (decide_eq_false (by omega))
  · exact .inl (beq_eq_false_iff_ne.2 hsingle)

end Corresponding
end Concordance.Merged
