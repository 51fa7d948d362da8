import Concordance.Merged.Build
import Concordance.Proofs.Mapping
import Concordance.Proofs.Subtree
import Concordance.Proofs.Tables

/-!
# Origins of merged nodes

If the mapping pairs nodes of the two expressions, every reference node and every
comparison node stands behind exactly one origin, and the partners of a pair
stand behind the same one. The index tables therefore answer with the one
position at which the origin of a node is listed.
-/
namespace Concordance.Merged

open Expression

section IndexTable

variable {size n k : Nat} {node? : Origin → Option Nat} {origins : List Origin} {o : Origin}

theorem indexTable_eq (size : Nat) (node? : Origin → Option Nat) (origins : List Origin) :
    Input.indexTable size node? origins = Tables.setAll
      (origins.zipIdx.filterMap fun entry => (node? entry.1).map (·, some entry.2))
      (Array.replicate size none) := by
  rw [Tables.setAll, List.foldl_filterMap]
  unfold Input.indexTable
  congr 1
  funext table entry
  cases node? entry.1 <;> rfl

theorem indexTable_keys (node? : Origin → Option Nat) (origins : List Origin) :
    (origins.zipIdx.filterMap fun entry => (node? entry.1).map (·, some entry.2)).map Prod.fst =
      origins.filterMap node? := by
  have hkeys : (origins.zipIdx.map Prod.fst).filterMap node? = origins.filterMap node? := by
    rw [List.zipIdx_map_fst]
  rw [← hkeys, List.filterMap_map, List.map_filterMap]
  congr 1
  funext entry
  cases h : node? entry.1 <;> simp [h]

/-- If no node stands behind two origins, the table of a node has the position of its origin. -/
theorem indexTable_eq_some_iff (hnodup : (origins.filterMap node?).Nodup) (hn : n < size) :
    (Input.indexTable size node? origins)[n]?.getD none = some k ↔
      ∃ o, origins[k]? = some o ∧ node? o = some n := by
  have hentry : ∀ j o, origins[j]? = some o → node? o = some n →
      (Input.indexTable size node? origins)[n]?.getD none = some j := by
    intro j o hj ho
    have hmem : (n, some j) ∈ origins.zipIdx.filterMap
        fun entry => (node? entry.1).map (·, some entry.2) := by
      rw [List.mem_filterMap]
      exact ⟨(o, j), List.mk_mem_zipIdx_iff_getElem?.2 hj, by rw [ho]; rfl⟩
    rw [indexTable_eq, Tables.getElem?_setAll (by rw [indexTable_keys]; exact hnodup) hmem
      (by rw [Array.size_replicate]; exact hn)]
    rfl
  constructor
  · intro h
    by_cases hmem : n ∈ origins.filterMap node?
    · obtain ⟨o, ho, hnode⟩ := List.mem_filterMap.1 hmem
      obtain ⟨j, hj⟩ := List.mem_iff_getElem?.1 ho
      rw [hentry j o hj hnode] at h
      exact ⟨o, Option.some.inj h ▸ hj, hnode⟩
    · rw [indexTable_eq, Tables.getElem?_setAll_of_notMem (by rw [indexTable_keys]; exact hmem),
        Array.getElem?_replicate, if_pos hn] at h
      simp at h
  · rintro ⟨o, ho, hnode⟩
    exact hentry k o ho hnode

end IndexTable

namespace Input

variable {i : Input} {r c k : Nat} {o : Origin} {q : Quality}

/-- The mapping of an input pairs nodes of its expressions. -/
def Paired (i : Input) : Prop :=
  i.mapping.Valid i.reference.size i.comparison.size

/-- Origin of a comparison node: that of its partner, or the node by itself. -/
def comparisonOrigin (i : Input) (c : Nat) : Origin :=
  match i.mapping.referenceFor? c with
  | none => .comparison c
  | some r => i.referenceOrigin r

theorem referenceOrigin_of_none (h : i.mapping.correspondence? r = none) :
    i.referenceOrigin r = .reference r := by
  rw [referenceOrigin, h]

theorem reference?_referenceOrigin (i : Input) (r : Nat) :
    (i.referenceOrigin r).reference? = some r := by
  unfold referenceOrigin
  split
  · rfl
  · split <;> rfl

theorem comparisonOrigin_of_none (h : i.mapping.referenceFor? c = none) :
    i.comparisonOrigin c = .comparison c := by
  rw [comparisonOrigin, h]

theorem filterMap_reference? (i : Input) :
    i.origins.filterMap Origin.reference? = i.reference.postOrder := by
  have hreference : i.referenceOrigins.filterMap Origin.reference? = i.reference.postOrder := by
    have hsome : Origin.reference? ∘ i.referenceOrigin = some :=
      funext fun r => i.reference?_referenceOrigin r
    rw [referenceOrigins, List.filterMap_map, hsome, List.filterMap_some]
  have hcomparison : i.comparisonOrigins.filterMap Origin.reference? = [] := by
    rw [comparisonOrigins, List.filterMap_map, List.filterMap_eq_nil_iff]
    intro c _
    rfl
  rw [origins, List.filterMap_append, hreference, hcomparison, List.append_nil]

section Paired

variable (hi : i.Paired)

include hi

theorem referenceOrigin_of_some (h : i.mapping.correspondence? r = some ⟨c, q⟩) :
    i.referenceOrigin r = .shared r c q := by
  have hc := (hi.lt_sizes (Mapping.comparisonFor?_eq_some_iff.2 ⟨q, h⟩)).2
  obtain ⟨k, hk⟩ := exists_kind? hc
  rw [referenceOrigin, h]
  dsimp only
  rw [hk]
  rfl

theorem comparison?_referenceOrigin (r : Nat) :
    (i.referenceOrigin r).comparison? = i.mapping.comparisonFor? r := by
  cases h : i.mapping.correspondence? r with
  | none =>
    rw [referenceOrigin_of_none h, Mapping.comparisonFor?_eq_none_iff.2 h]
    rfl
  | some found =>
    rw [referenceOrigin_of_some hi h, Mapping.comparisonFor?_eq_some_iff.2 ⟨_, h⟩]
    rfl

theorem comparison?_comparisonOrigin (c : Nat) : (i.comparisonOrigin c).comparison? = some c := by
  unfold comparisonOrigin
  split
  · rfl
  · rename_i r hr
    rw [comparison?_referenceOrigin hi, (hi.agree r c).2 hr]

theorem filterMap_comparison?_referenceOrigins :
    i.referenceOrigins.filterMap Origin.comparison? =
      i.reference.postOrder.filterMap i.mapping.comparisonFor? := by
  rw [referenceOrigins, List.filterMap_map]
  exact congrArg (List.filterMap · i.reference.postOrder)
    (funext fun r => comparison?_referenceOrigin hi r)

theorem mem_filterMap_comparisonFor? :
    c ∈ i.reference.postOrder.filterMap i.mapping.comparisonFor? ↔
      ∃ r, i.mapping.referenceFor? c = some r := by
  rw [List.mem_filterMap]
  constructor
  · rintro ⟨r, -, h⟩
    exact ⟨r, (hi.agree r c).1 h⟩
  · rintro ⟨r, h⟩
    have hr := (hi.agree r c).2 h
    exact ⟨r, mem_postOrder.2 (hi.lt_sizes hr).1, hr⟩

theorem mem_comparisonOrigins :
    o ∈ i.comparisonOrigins ↔
      ∃ c < i.comparison.size, i.mapping.referenceFor? c = none ∧ o = .comparison c := by
  rw [comparisonOrigins, filterMap_comparison?_referenceOrigins hi, List.mem_map]
  constructor
  · rintro ⟨c, hc, rfl⟩
    obtain ⟨hmem, hfree⟩ := List.mem_filter.1 hc
    refine ⟨c, mem_postOrder.1 hmem, ?_, rfl⟩
    cases hr : i.mapping.referenceFor? c with
    | none => rfl
    | some r =>
      rw [List.contains_iff_mem.2 ((mem_filterMap_comparisonFor? hi).2 ⟨r, hr⟩)] at hfree
      simp at hfree
  · rintro ⟨c, hc, hfree, rfl⟩
    refine ⟨c, List.mem_filter.2 ⟨mem_postOrder.2 hc, ?_⟩, rfl⟩
    rw [Bool.not_eq_true', ← Bool.not_eq_true, List.contains_iff_mem,
      mem_filterMap_comparisonFor? hi, hfree]
    simp

theorem mem_origins :
    o ∈ i.origins ↔ (∃ r < i.reference.size, o = i.referenceOrigin r) ∨
      ∃ c < i.comparison.size, i.mapping.referenceFor? c = none ∧ o = .comparison c := by
  rw [origins, List.mem_append, mem_comparisonOrigins hi, referenceOrigins, List.mem_map]
  refine or_congr_left ⟨?_, ?_⟩
  · rintro ⟨r, hr, rfl⟩
    exact ⟨r, mem_postOrder.1 hr, rfl⟩
  · rintro ⟨r, hr, rfl⟩
    exact ⟨r, mem_postOrder.2 hr, rfl⟩

/-- Every comparison node stands behind at most one origin. -/
theorem nodup_filterMap_comparison? : (i.origins.filterMap Origin.comparison?).Nodup := by
  have hpaired : (i.reference.postOrder.filterMap i.mapping.comparisonFor?).Nodup := by
    rw [List.Nodup, List.pairwise_filterMap]
    refine i.reference.postOrder_nodup.imp fun hne => ?_
    rintro y hy z hz rfl
    exact hne (hi.injective hy hz)
  have hsingle : i.comparisonOrigins.filterMap Origin.comparison? =
      i.comparison.postOrder.filter fun c =>
        !(i.referenceOrigins.filterMap Origin.comparison?).contains c := by
    rw [comparisonOrigins, List.filterMap_map]
    exact List.filterMap_some
  rw [origins, List.filterMap_append, hsingle, filterMap_comparison?_referenceOrigins hi,
    List.nodup_append]
  refine ⟨hpaired, i.comparison.postOrder_nodup.filter _, ?_⟩
  rintro c hc _ hmem rfl
  have hfree := (List.mem_filter.1 hmem).2
  rw [List.contains_iff_mem.2 hc] at hfree
  simp at hfree

theorem eq_referenceOrigin (ho : o ∈ i.origins) (hr : o.reference? = some r) :
    r < i.reference.size ∧ o = i.referenceOrigin r := by
  rcases (mem_origins hi).1 ho with ⟨x, hx, rfl⟩ | ⟨c, -, -, rfl⟩
  · rw [reference?_referenceOrigin] at hr
    rw [← Option.some.inj hr]
    exact ⟨hx, rfl⟩
  · simp [Origin.reference?] at hr

theorem eq_comparisonOrigin (ho : o ∈ i.origins) (hc : o.comparison? = some c) :
    c < i.comparison.size ∧ o = i.comparisonOrigin c := by
  rcases (mem_origins hi).1 ho with ⟨r, -, rfl⟩ | ⟨x, hx, hfree, rfl⟩
  · rw [comparison?_referenceOrigin hi] at hc
    rw [comparisonOrigin, (hi.agree r c).1 hc]
    exact ⟨(hi.lt_sizes hc).2, rfl⟩
  · obtain rfl : x = c := Option.some.inj hc
    exact ⟨hx, (comparisonOrigin_of_none hfree).symm⟩

theorem referenceOrigin_mem (hr : r < i.reference.size) : i.referenceOrigin r ∈ i.origins :=
  (mem_origins hi).2 (.inl ⟨r, hr, rfl⟩)

theorem comparisonOrigin_mem (hc : c < i.comparison.size) : i.comparisonOrigin c ∈ i.origins := by
  unfold comparisonOrigin
  split
  · rename_i hfree
    exact (mem_origins hi).2 (.inr ⟨c, hc, hfree, rfl⟩)
  · rename_i r hr
    exact referenceOrigin_mem hi (hi.lt_sizes ((hi.agree r c).2 hr)).1

theorem referenceIndex_eq_some_iff (hr : r < i.reference.size) :
    i.referenceIndex[r]?.getD none = some k ↔ i.origins[k]? = some (i.referenceOrigin r) := by
  have hnodup : (i.origins.filterMap Origin.reference?).Nodup := by
    rw [filterMap_reference?]
    exact i.reference.postOrder_nodup
  rw [referenceIndex, indexTable_eq_some_iff hnodup hr]
  constructor
  · rintro ⟨o, ho, hnode⟩
    rw [ho, (eq_referenceOrigin hi (List.mem_of_getElem? ho) hnode).2]
  · intro h
    exact ⟨_, h, i.reference?_referenceOrigin r⟩

theorem comparisonIndex_eq_some_iff (hc : c < i.comparison.size) :
    i.comparisonIndex[c]?.getD none = some k ↔ i.origins[k]? = some (i.comparisonOrigin c) := by
  rw [comparisonIndex, indexTable_eq_some_iff (nodup_filterMap_comparison? hi) hc]
  constructor
  · rintro ⟨o, ho, hnode⟩
    rw [ho, (eq_comparisonOrigin hi (List.mem_of_getElem? ho) hnode).2]
  · intro h
    exact ⟨_, h, comparison?_comparisonOrigin hi c⟩

theorem exists_referenceIndex (hr : r < i.reference.size) :
    ∃ k, i.referenceIndex[r]?.getD none = some k := by
  obtain ⟨k, hk⟩ := List.mem_iff_getElem?.1 (referenceOrigin_mem hi hr)
  exact ⟨k, (referenceIndex_eq_some_iff hi hr).2 hk⟩

theorem exists_comparisonIndex (hc : c < i.comparison.size) :
    ∃ k, i.comparisonIndex[c]?.getD none = some k := by
  obtain ⟨k, hk⟩ := List.mem_iff_getElem?.1 (comparisonOrigin_mem hi hc)
  exact ⟨k, (comparisonIndex_eq_some_iff hi hc).2 hk⟩

theorem comparisonIndex_of_pair (h : i.mapping.comparisonFor? r = some c) :
    i.comparisonIndex[c]?.getD none = i.referenceIndex[r]?.getD none := by
  obtain ⟨hr, hc⟩ := hi.lt_sizes h
  obtain ⟨k, hk⟩ := exists_referenceIndex hi hr
  rw [hk, comparisonIndex_eq_some_iff hi hc, comparisonOrigin, (hi.agree r c).1 h]
  exact (referenceIndex_eq_some_iff hi hr).1 hk

end Paired
end Input
end Concordance.Merged
