import Concordance.Proofs.Mapping
import Mathlib.Data.List.Perm.Subperm
import Mathlib.Tactic.ByContra

/-!
# The views of a mapping agree

A mapping is asked from either side: for the partner of a node, for its unmatched
nodes, for its index maps and for the number of its pairs. Some of these read the
forward list only, some the backward list only. Once the two lists agree the views
do, and they agree in every mapping that insertions build, refused insertions
included. Conversely, every mapping whose lists agree is built by inserting its
own pairs.

The lists of unmatched nodes are complete on a side with fewer nodes than there
are indices. Only then do they add up with the pairs; on a side with exactly as
many nodes as indices the list is empty whatever is matched.
-/
namespace Concordance.Mapping

variable {m m' : Mapping} {r c : Nat} {q : Quality}

/-- The list of unmatched nodes of a side is complete. -/
def ListsAll (size : Nat) (matched : Nat → Bool) : Prop :=
  ∀ n < size, matched n = false → n ∈ unmatchedAmong size matched

/-- What a reader of a mapping takes for granted, whichever list a view is read from, and what depends
on the lists of unmatched nodes. -/
structure ViewsAgree (m : Mapping) : Prop where
  partners : ∀ r c, m.comparisonFor? r = some c ↔ m.referenceFor? c = some r
  referenceToComparison : ∀ r c,
    (r, c) ∈ m.referenceToComparison ↔ m.comparisonFor? r = some c
  comparisonToReference : ∀ r c,
    (c, r) ∈ m.comparisonToReference ↔ m.comparisonFor? r = some c
  referenceToComparison_keys : (m.referenceToComparison.map Prod.fst).Pairwise (· < ·)
  comparisonToReference_keys : (m.comparisonToReference.map Prod.fst).Pairwise (· < ·)
  quality_count : m.exactCount + m.approximateCount = m.size
  approximate_count :
    m.approximateCount = m.pairs.countP fun pair => pair.2.quality = .approximate
  reference_count : m.size + m.unmatchedReference.length = m.referenceSize ↔
    ListsAll m.referenceSize m.hasReference
  comparison_count : m.size + m.unmatchedComparison.length = m.comparisonSize ↔
    ListsAll m.comparisonSize m.hasComparison
  total : m.isTotal = true ↔ m.unmatchedReference = [] ∧ m.unmatchedComparison = [] ∧
    ListsAll m.referenceSize m.hasReference ∧ ListsAll m.comparisonSize m.hasComparison

section Unmatched

variable {size n : Nat} {matched : Nat → Bool}

theorem mem_unmatchedAmong :
    n ∈ unmatchedAmong size matched ↔ n < size % indexCount ∧ matched n = false := by
  rw [unmatchedAmong, List.mem_filter, List.mem_range, Bool.not_eq_true']

theorem listsAll_of_lt (h : size < indexCount) (matched : Nat → Bool) : ListsAll size matched := by
  intro n hn hfree
  rw [mem_unmatchedAmong, Nat.mod_eq_of_lt h]
  exact ⟨hn, hfree⟩

theorem unmatchedAmong_sublist (size : Nat) (matched : Nat → Bool) :
    (unmatchedAmong size matched).Sublist ((List.range size).filter fun n => !matched n) :=
  (List.range_sublist.2 (Nat.mod_le size indexCount)).filter _

/-- With the matched nodes the list makes up the size if and only if it is complete. -/
theorem length_add_unmatchedAmong (size : Nat) (matched : Nat → Bool) :
    ((List.range size).filter matched).length + (unmatchedAmong size matched).length = size ↔
      ListsAll size matched := by
  have hsplit := List.length_eq_length_filter_add (l := List.range size) matched
  have hsublist := unmatchedAmong_sublist size matched
  rw [List.length_range] at hsplit
  constructor
  · intro hsum n hn hfree
    rw [hsublist.eq_of_length (by omega), List.mem_filter, List.mem_range, Bool.not_eq_true']
    exact ⟨hn, hfree⟩
  · intro hall
    have hsubset : ((List.range size).filter fun n => !matched n) ⊆ unmatchedAmong size matched := by
      intro n hn
      obtain ⟨hsize, hfree⟩ := List.mem_filter.1 hn
      exact hall n (List.mem_range.1 hsize) (by simpa using hfree)
    have hle := (List.subperm_of_subset (List.nodup_range.filter _) hsubset).length_le
    have := hsublist.length_le
    omega

/-- Every node is matched if and only if the list is complete and empty. -/
theorem forall_matched_iff : (∀ n < size, matched n = true) ↔
    unmatchedAmong size matched = [] ∧ ListsAll size matched := by
  constructor
  · intro hall
    refine ⟨List.eq_nil_iff_forall_not_mem.2 fun n hn => ?_, fun n hn hfree => ?_⟩
    · obtain ⟨hlt, hfree⟩ := mem_unmatchedAmong.1 hn
      rw [hall n (Nat.lt_of_lt_of_le hlt (Nat.mod_le _ _))] at hfree
      cases hfree
    · rw [hall n hn] at hfree
      cases hfree
  · rintro ⟨hnil, hlists⟩ n hn
    cases hmatched : matched n with
    | true => rfl
    | false => exact absurd (hnil ▸ hlists n hn hmatched) List.not_mem_nil

end Unmatched

theorem mem_referenceToComparison :
    (r, c) ∈ m.referenceToComparison ↔ m.comparisonFor? r = some c := by
  rw [referenceToComparison, List.mem_map, comparisonFor?_eq_some_iff]
  constructor
  · rintro ⟨⟨x, y, q⟩, hmem, heq⟩
    obtain ⟨rfl, rfl⟩ := Prod.mk.inj heq
    exact ⟨q, mem_pairs.1 hmem⟩
  · rintro ⟨q, hq⟩
    exact ⟨(r, ⟨c, q⟩), mem_pairs.2 hq, rfl⟩

theorem map_fst_pairs (m : Mapping) :
    m.pairs.map Prod.fst = (List.range m.referenceSize).filter m.hasReference := by
  rw [pairs, List.map_filterMap, ← List.filterMap_eq_filter]
  refine List.filterMap_congr fun r _ => ?_
  cases h : m.correspondence? r <;> simp [Option.guard, hasReference, h]

theorem size_eq (m : Mapping) :
    m.size = ((List.range m.referenceSize).filter m.hasReference).length := by
  rw [size, ← map_fst_pairs, List.length_map]

theorem exactCount_add_approximateCount (m : Mapping) :
    m.exactCount + m.approximateCount = m.size :=
  Nat.add_sub_cancel' List.countP_le_length

theorem approximateCount_eq (m : Mapping) :
    m.approximateCount = m.pairs.countP fun pair => pair.2.quality = .approximate := by
  have hother : ∀ q : Quality, q = .approximate ↔ ¬ q = .exact := by
    intro q
    cases q <;> simp
  have hsplit := List.length_eq_countP_add_countP (l := m.pairs) fun pair =>
    decide (pair.2.quality = .exact)
  simp only [decide_eq_true_eq] at hsplit
  simp only [approximateCount, size, exactCount, hother]
  omega

theorem isTotal_iff_unmatched (m : Mapping) : m.isTotal = true ↔
    m.unmatchedReference = [] ∧ m.unmatchedComparison = [] ∧
      ListsAll m.referenceSize m.hasReference ∧ ListsAll m.comparisonSize m.hasComparison := by
  simp only [isTotal_iff, ← hasReference_iff, ← hasComparison_iff, forall_matched_iff]
  rw [unmatchedReference, unmatchedComparison]
  tauto

theorem reference_count_iff (m : Mapping) : m.size + m.unmatchedReference.length = m.referenceSize ↔
    ListsAll m.referenceSize m.hasReference := by
  rw [m.size_eq]
  exact length_add_unmatchedAmong _ _

theorem reference_count_of_isTotal (h : m.isTotal = true) :
    m.size + m.unmatchedReference.length = m.referenceSize :=
  m.reference_count_iff.2 (m.isTotal_iff_unmatched.1 h).2.2.1

/-- The last pair with the partner of a pair. -/
theorem exists_last {found : Correspondence} (h : (r, found) ∈ m.pairs) :
    ∃ last ∈ m.pairs, m.pairs.reverse.find? (·.2.comparison = found.comparison) = some last ∧
      last.2.comparison = found.comparison := by
  have hfound : (m.pairs.reverse.find? (·.2.comparison = found.comparison)).isSome = true := by
    rw [List.find?_isSome]
    exact ⟨(r, found), List.mem_reverse.2 h, by simp⟩
  obtain ⟨last, hlast⟩ := Option.isSome_iff_exists.1 hfound
  exact ⟨last, List.mem_reverse.1 (List.mem_of_find?_eq_some hlast), hlast,
    by simpa using List.find?_some hlast⟩

/-- Every partner has its entry. -/
theorem map_fst_comparisonToReference (m : Mapping) :
    m.comparisonToReference.map Prod.fst =
      ascending (m.pairs.map (·.2.comparison)).eraseDups := by
  rw [comparisonToReference, List.map_filterMap]
  refine (List.filterMap_congr fun c hc => ?_).trans List.filterMap_some
  rw [mem_ascending, List.mem_eraseDups, List.mem_map] at hc
  obtain ⟨pair, hmem, rfl⟩ := hc
  obtain ⟨last, -, hlast, -⟩ := exists_last hmem
  rw [hlast]
  rfl

namespace Valid

variable {referenceSize comparisonSize : Nat} (hm : m.Valid referenceSize comparisonSize)

include hm

theorem map_comparison_pairs_perm : (m.pairs.map (·.2.comparison)).Perm
    ((List.range comparisonSize).filter m.hasComparison) := by
  have hnodup : (m.pairs.map (·.2.comparison)).Nodup := List.pairwise_map.2 hm.pairs_pairwise
  rw [List.perm_ext_iff_of_nodup hnodup (List.nodup_range.filter _)]
  intro c
  rw [List.mem_map, List.mem_filter, List.mem_range, hasComparison_iff]
  constructor
  · rintro ⟨⟨r, c', q⟩, hmem, rfl⟩
    have hrc := comparisonFor?_eq_some_iff.2 ⟨q, mem_pairs.1 hmem⟩
    exact ⟨(hm.lt_sizes hrc).2, r, (hm.agree _ _).1 hrc⟩
  · rintro ⟨-, r, hr⟩
    obtain ⟨q, hq⟩ := comparisonFor?_eq_some_iff.1 ((hm.agree r c).2 hr)
    exact ⟨(r, ⟨c, q⟩), mem_pairs.2 hq, rfl⟩

theorem size_eq_comparison :
    m.size = ((List.range comparisonSize).filter m.hasComparison).length := by
  rw [← hm.map_comparison_pairs_perm.length_eq, List.length_map, size]

/-- Every comparison node is in one pair or in none. -/
theorem size_add_openComparison :
    m.size + ((List.range comparisonSize).filter fun c => !m.hasComparison c).length =
      comparisonSize := by
  have hsplit := List.length_eq_length_filter_add (l := List.range comparisonSize) m.hasComparison
  rw [List.length_range] at hsplit
  rw [hm.size_eq_comparison]
  exact hsplit.symm

theorem mem_comparisonToReference :
    (c, r) ∈ m.comparisonToReference ↔ m.comparisonFor? r = some c := by
  rw [comparisonToReference, List.mem_filterMap]
  constructor
  · rintro ⟨y, -, hy⟩
    obtain ⟨⟨x, y', q⟩, hfound, heq⟩ := Option.map_eq_some_iff.1 hy
    obtain ⟨rfl, rfl⟩ := Prod.mk.inj heq
    have hy' : y' = y := by simpa using List.find?_some hfound
    have hmem := List.mem_reverse.1 (List.mem_of_find?_eq_some hfound)
    exact comparisonFor?_eq_some_iff.2 ⟨q, hy' ▸ mem_pairs.1 hmem⟩
  · intro h
    obtain ⟨q, hq⟩ := comparisonFor?_eq_some_iff.1 h
    have hmem := mem_pairs.2 hq
    refine ⟨c, ?_, ?_⟩
    · rw [mem_ascending, List.mem_eraseDups]
      exact List.mem_map_of_mem hmem
    · obtain ⟨⟨x, y, q'⟩, hx, hlast, rfl⟩ := exists_last hmem
      have hxc := comparisonFor?_eq_some_iff.2 ⟨q', mem_pairs.1 hx⟩
      rw [hlast, Option.map_some, hm.injective hxc h]

theorem viewsAgree : m.ViewsAgree where
  partners := hm.agree
  referenceToComparison _ _ := mem_referenceToComparison
  comparisonToReference _ _ := hm.mem_comparisonToReference
  referenceToComparison_keys := by
    rw [Mapping.referenceToComparison, List.map_map]
    exact List.pairwise_map.2 m.pairs_pairwise
  comparisonToReference_keys := by
    rw [map_fst_comparisonToReference]
    exact ascending_eraseDups_pairwise _
  quality_count := m.exactCount_add_approximateCount
  approximate_count := m.approximateCount_eq
  reference_count := m.reference_count_iff
  comparison_count := by
    rw [hm.size_eq_comparison, hm.comparison, unmatchedComparison, hm.comparison]
    exact length_add_unmatchedAmong _ _
  total := m.isTotal_iff_unmatched

end Valid

/-- An insertion adds its pair and changes nothing else. -/
theorem Free.insert? (h : m.Free r c) (q : Quality) : ∃ m', m.insert? r c q = some m' ∧
    m.insert r c q = m' ∧
    (∀ x, m'.correspondence? x = if x = r then some ⟨c, q⟩ else m.correspondence? x) ∧
    ∀ y, m'.referenceFor? y = if y = c then some r else m.referenceFor? y := by
  obtain ⟨hr, hc⟩ := free_iff.1 h
  have hinsert := (insert?_eq_some_iff (q := q)).2 ⟨hr, hc, rfl⟩
  exact ⟨_, hinsert, by rw [Mapping.insert, hinsert]; rfl, correspondence?_insert? hinsert,
    referenceFor?_insert? hinsert⟩

/-- A refused insertion leaves the mapping as it was. -/
theorem insert?_of_not_free (h : ¬ m.Free r c) (q : Quality) :
    m.insert? r c q = none ∧ m.insert r c q = m := by
  have hnone : m.insert? r c q = none := by
    cases hm' : m.insert? r c q with
    | none => rfl
    | some m' =>
      obtain ⟨hr, hc, -⟩ := insert?_eq_some_iff.1 hm'
      exact absurd (free_iff.2 ⟨hr, hc⟩) h
  exact ⟨hnone, by rw [Mapping.insert, hnone]; rfl⟩

namespace Valid

variable {referenceSize comparisonSize : Nat}

theorem insert_any (hm : m.Valid referenceSize comparisonSize) (r c : Nat) (q : Quality) :
    (m.insert r c q).Valid referenceSize comparisonSize := by
  by_cases hfree : m.Free r c
  · obtain ⟨m', hm', heq, -⟩ := hfree.insert? q
    rw [heq]
    exact hm.insert hm'
  · rw [(insert?_of_not_free hfree q).2]
    exact hm

theorem insertAll (hm : m.Valid referenceSize comparisonSize)
    (pairs : List (Nat × Nat × Quality)) :
    (m.insertAll pairs).Valid referenceSize comparisonSize := by
  induction pairs generalizing m with
  | nil => exact hm
  | cons pair pairs ih => exact ih (hm.insert_any _ _ _)

/-- Two mappings whose lists agree are the same if their pairs are. -/
theorem eq_of_correspondence? (hm : m.Valid referenceSize comparisonSize)
    (hm' : m'.Valid referenceSize comparisonSize)
    (h : ∀ r, m.correspondence? r = m'.correspondence? r) : m = m' := by
  have hback : ∀ c, m.referenceFor? c = m'.referenceFor? c := by
    intro c
    ext r
    rw [← hm.agree, ← hm'.agree, comparisonFor?, comparisonFor?, h]
  have hsize := hm.reference.trans hm'.reference.symm
  have hsize' := hm.comparison.trans hm'.comparison.symm
  obtain ⟨forward, backward⟩ := m
  obtain ⟨forward', backward'⟩ := m'
  simp only [mk.injEq]
  refine ⟨Array.ext hsize fun k hk hk' => ?_, Array.ext hsize' fun k hk hk' => ?_⟩
  · simpa [correspondence?, hk, hk'] using h k
  · simpa [referenceFor?, hk, hk'] using hback k

theorem extends_insert (hm : m.Valid referenceSize comparisonSize)
    (hr : m.correspondence? r = some ⟨c, q⟩) (hm' : m'.Valid referenceSize comparisonSize)
    (hpart : m.Extends m') :
    m.Extends (m'.insert r c q) ∧ (m'.insert r c q).Extends m' ∧
      (m'.insert r c q).hasReference r = true := by
  have hrc : m.comparisonFor? r = some c := comparisonFor?_eq_some_iff.2 ⟨q, hr⟩
  by_cases hfree : m'.Free r c
  · obtain ⟨m'', hinsert, heq, hnew, -⟩ := hfree.insert? q
    rw [heq]
    refine ⟨fun x found hx => ?_, .of_insert? hinsert, by simp [Mapping.hasReference, hnew]⟩
    rw [hnew] at hx
    split at hx
    · rename_i hxr
      rw [hxr, hr, ← hx]
    · exact hpart x found hx
  · rw [(insert?_of_not_free hfree q).2]
    refine ⟨hpart, .refl m', ?_⟩
    have hsizes := hm.lt_sizes hrc
    rw [← hm'.reference, ← hm'.comparison] at hsizes
    -- the comparison node is taken in the part only by the reference node itself
    by_contra hunmatched
    refine hfree ⟨hsizes.1, hsizes.2, by simpa using hunmatched, ?_⟩
    by_contra htaken
    obtain ⟨x, hx⟩ := hasComparison_iff.1 (by simpa using htaken)
    have hxc := (hm'.agree x c).2 hx
    have := hm.injective (hpart.comparisonFor? hxc) hrc
    exact hunmatched (hasReference_iff.2 ⟨c, this ▸ hxc⟩)

theorem extends_insertAll (hm : m.Valid referenceSize comparisonSize)
    (pairs : List (Nat × Correspondence)) (hpairs : ∀ pair ∈ pairs, pair ∈ m.pairs)
    (hm' : m'.Valid referenceSize comparisonSize) (hpart : m.Extends m') :
    let grown := m'.insertAll (pairs.map fun pair => (pair.1, pair.2.comparison, pair.2.quality))
    m.Extends grown ∧ grown.Extends m' ∧ ∀ pair ∈ pairs, grown.hasReference pair.1 = true := by
  induction pairs generalizing m' with
  | nil => exact ⟨hpart, .refl m', by simp⟩
  | cons pair pairs ih =>
    obtain ⟨hpart', hstep, hnow⟩ :=
      hm.extends_insert (mem_pairs.1 (hpairs pair (by simp))) hm' hpart
    obtain ⟨hpart'', hgrown, hall⟩ := ih (fun pair h => hpairs pair (by simp [h]))
      (hm'.insert_any _ _ _) hpart'
    refine ⟨hpart'', hgrown.trans hstep, ?_⟩
    rw [List.forall_mem_cons]
    exact ⟨hgrown.hasReference hnow, hall⟩

/-- The mappings whose lists agree are those that insertions build. -/
theorem iff_insertAll : m.Valid referenceSize comparisonSize ↔
    ∃ pairs, m = (Mapping.empty referenceSize comparisonSize).insertAll pairs := by
  constructor
  · intro hm
    obtain ⟨hpart, -, hall⟩ := hm.extends_insertAll m.pairs (fun _ h => h) Valid.empty
      (fun r found h => by simp at h)
    refine ⟨m.pairs.map fun pair => (pair.1, pair.2.comparison, pair.2.quality),
      hm.eq_of_correspondence? (Valid.empty.insertAll _) fun r => ?_⟩
    cases hr : m.correspondence? r with
    | some found =>
      obtain ⟨c, hc⟩ := hasReference_iff.1 (hall _ (mem_pairs.2 hr))
      obtain ⟨q, hq⟩ := comparisonFor?_eq_some_iff.1 hc
      rw [hq, ← hr, hpart r _ hq]
    | none =>
      generalize (Mapping.empty referenceSize comparisonSize).insertAll _ = grown at hpart ⊢
      cases hr' : grown.correspondence? r with
      | none => rfl
      | some found => simp [hpart r found hr'] at hr
  · rintro ⟨pairs, rfl⟩
    exact Valid.empty.insertAll pairs

end Valid

/-- Insertions, whatever pairs they are called with, build a partial bijection that all views agree
on; one more adds its pair exactly if both nodes are there and unmatched, and changes nothing
otherwise. With fewer nodes than indices the lists of unmatched nodes are complete, so that they add
up with the pairs and are both empty exactly if every node is matched. -/
theorem insertions_build_partial_bijection (referenceSize comparisonSize : Nat)
    (pairs : List (Nat × Nat × Quality)) :
    let m := (empty referenceSize comparisonSize).insertAll pairs
    m.Valid referenceSize comparisonSize ∧ m.ViewsAgree ∧
      (referenceSize < indexCount →
        m.size + m.unmatchedReference.length = referenceSize) ∧
      (comparisonSize < indexCount →
        m.size + m.unmatchedComparison.length = comparisonSize) ∧
      (referenceSize < indexCount → comparisonSize < indexCount →
        (m.isTotal = true ↔ m.unmatchedReference = [] ∧ m.unmatchedComparison = [])) ∧
      ∀ r c q,
        (m.Free r c → ∃ m', m.insert? r c q = some m' ∧ m.insert r c q = m' ∧
          (∀ x, m'.correspondence? x = if x = r then some ⟨c, q⟩ else m.correspondence? x) ∧
          ∀ y, m'.referenceFor? y = if y = c then some r else m.referenceFor? y) ∧
        (¬ m.Free r c → m.insert? r c q = none ∧ m.insert r c q = m) := by
  intro m
  have hempty : (empty referenceSize comparisonSize).Valid referenceSize comparisonSize :=
    Valid.empty
  have hvalid : m.Valid referenceSize comparisonSize := hempty.insertAll pairs
  have hviews := hvalid.viewsAgree
  have hreference : referenceSize < indexCount → ListsAll m.referenceSize m.hasReference := by
    rw [← hvalid.reference]
    exact fun h => listsAll_of_lt h _
  have hcomparison : comparisonSize < indexCount → ListsAll m.comparisonSize m.hasComparison := by
    rw [← hvalid.comparison]
    exact fun h => listsAll_of_lt h _
  refine ⟨hvalid, hviews, fun h => ?_, fun h => ?_, fun h h' => ?_, fun r c q =>
    ⟨fun hfree => hfree.insert? q, fun hfree => insert?_of_not_free hfree q⟩⟩
  · exact (hviews.reference_count.2 (hreference h)).trans hvalid.reference
  · exact (hviews.comparison_count.2 (hcomparison h)).trans hvalid.comparison
  · rw [hviews.total]
    exact ⟨fun hall => ⟨hall.1, hall.2.1⟩, fun hnil =>
      ⟨hnil.1, hnil.2, hreference h, hcomparison h'⟩⟩

theorem size_empty (referenceSize comparisonSize : Nat) :
    (empty referenceSize comparisonSize).size = 0 := by
  rw [size_eq, List.length_eq_zero_iff, List.filter_eq_nil_iff]
  intro r _
  simp [hasReference]

/-- As many reference nodes as there are indices, and nothing matched: both lists are empty. -/
theorem unmatched_nodes_not_listed :
    let m := (empty indexCount 0).insertAll []
    m.referenceSize = indexCount ∧ m.size = 0 ∧ m.isTotal = false ∧
      m.unmatchedReference = [] ∧ m.unmatchedComparison = [] ∧
      ¬ ∀ referenceSize comparisonSize pairs,
        let m := (empty referenceSize comparisonSize).insertAll pairs
        m.size + m.unmatchedReference.length = m.referenceSize ∧
          (m.isTotal = true ↔ m.unmatchedReference = [] ∧ m.unmatchedComparison = []) := by
  have hsize : ((empty indexCount 0).insertAll []).referenceSize = indexCount :=
    Valid.empty.reference
  have hsize' : ((empty indexCount 0).insertAll []).comparisonSize = 0 :=
    Valid.empty.comparison
  have hnone : ((empty indexCount 0).insertAll []).size = 0 := size_empty indexCount 0
  have hreference : ((empty indexCount 0).insertAll []).unmatchedReference = [] := by
    rw [unmatchedReference, hsize, unmatchedAmong, Nat.mod_self]
    rfl
  have hcomparison : ((empty indexCount 0).insertAll []).unmatchedComparison = [] := by
    rw [unmatchedComparison, hsize', unmatchedAmong, Nat.zero_mod]
    rfl
  have hcount : ¬ ((empty indexCount 0).insertAll []).size +
      ((empty indexCount 0).insertAll []).unmatchedReference.length =
        ((empty indexCount 0).insertAll []).referenceSize := by
    rw [hnone, hreference, hsize]
    decide
  refine ⟨hsize, hnone, ?_, hreference, hcomparison, fun h => hcount (h indexCount 0 []).1⟩
  exact Bool.eq_false_iff.2 fun htotal => hcount (reference_count_of_isTotal htotal)

end Concordance.Mapping
