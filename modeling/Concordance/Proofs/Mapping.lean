import Concordance.Mapping

/-!
# Mappings as partial bijections

The two lists of a mapping agree when each reads a pair from its own side. The
empty mapping agrees with itself, and inserting a pair keeps the lists in
agreement, because only nodes that are unmatched on both sides are paired.
-/
namespace Concordance.Mapping

variable {m m' : Mapping} {r c x y : Nat} {q : Quality}

/-- A mapping between expressions of given sizes whose two sides agree. -/
structure Valid (m : Mapping) (referenceSize comparisonSize : Nat) : Prop where
  reference : m.referenceSize = referenceSize
  comparison : m.comparisonSize = comparisonSize
  agree : ∀ r c, m.comparisonFor? r = some c ↔ m.referenceFor? c = some r

theorem comparisonFor?_eq_some_iff :
    m.comparisonFor? r = some c ↔ ∃ q, m.correspondence? r = some ⟨c, q⟩ := by
  rw [comparisonFor?, Option.map_eq_some_iff]
  constructor
  · rintro ⟨⟨c', q⟩, h, rfl⟩
    exact ⟨q, h⟩
  · rintro ⟨q, h⟩
    exact ⟨_, h, rfl⟩

theorem comparisonFor?_eq_none_iff : m.comparisonFor? r = none ↔ m.correspondence? r = none := by
  rw [comparisonFor?, Option.map_eq_none_iff]

theorem hasReference_eq_false_iff : m.hasReference r = false ↔ m.comparisonFor? r = none := by
  rw [hasReference, comparisonFor?_eq_none_iff, Option.isSome_eq_false_iff,
    Option.isNone_iff_eq_none]

theorem hasReference_iff : m.hasReference r = true ↔ ∃ c, m.comparisonFor? r = some c := by
  rw [hasReference, Option.isSome_iff_exists]
  constructor
  · rintro ⟨⟨c, q⟩, h⟩
    exact ⟨c, comparisonFor?_eq_some_iff.2 ⟨q, h⟩⟩
  · rintro ⟨c, h⟩
    obtain ⟨q, h⟩ := comparisonFor?_eq_some_iff.1 h
    exact ⟨_, h⟩

theorem hasComparison_eq_false_iff : m.hasComparison c = false ↔ m.referenceFor? c = none := by
  rw [hasComparison, Option.isSome_eq_false_iff, Option.isNone_iff_eq_none]

theorem hasComparison_iff : m.hasComparison c = true ↔ ∃ r, m.referenceFor? c = some r :=
  Option.isSome_iff_exists

theorem lt_referenceSize_of_correspondence? {found : Correspondence}
    (h : m.correspondence? r = some found) : r < m.referenceSize := by
  unfold correspondence? at h
  refine Nat.lt_of_not_le fun hle => ?_
  rw [Array.getElem?_eq_none hle] at h
  simp at h

theorem lt_comparisonSize_of_referenceFor? (h : m.referenceFor? c = some r) :
    c < m.comparisonSize := by
  unfold referenceFor? at h
  refine Nat.lt_of_not_le fun hle => ?_
  rw [Array.getElem?_eq_none hle] at h
  simp at h

theorem mem_pairs {found : Correspondence} :
    (r, found) ∈ m.pairs ↔ m.correspondence? r = some found := by
  rw [pairs, List.mem_filterMap]
  constructor
  · rintro ⟨n, -, h⟩
    obtain ⟨k, hk, heq⟩ := Option.map_eq_some_iff.1 h
    obtain ⟨rfl, rfl⟩ := Prod.mk.inj heq
    exact hk
  · intro h
    exact ⟨r, List.mem_range.2 (lt_referenceSize_of_correspondence? h), by rw [h]; rfl⟩

theorem pairs_pairwise (m : Mapping) : m.pairs.Pairwise fun a b => a.1 < b.1 := by
  rw [pairs, List.pairwise_filterMap]
  refine List.pairwise_lt_range.imp fun hlt => ?_
  intro x hx y hy
  obtain ⟨-, -, rfl⟩ := Option.map_eq_some_iff.1 hx
  obtain ⟨-, -, rfl⟩ := Option.map_eq_some_iff.1 hy
  exact hlt

theorem approximateCount_eq_zero_iff :
    m.approximateCount = 0 ↔ ∀ r c q, m.correspondence? r = some ⟨c, q⟩ → q = .exact := by
  have hle : m.exactCount ≤ m.size := List.countP_le_length
  have hall : m.approximateCount = 0 ↔ m.exactCount = m.size := by
    rw [approximateCount]
    omega
  rw [hall, exactCount, size, List.countP_eq_length]
  constructor
  · intro h r c q hr
    exact of_decide_eq_true (h _ (mem_pairs.2 hr))
  · rintro h ⟨r, c, q⟩ hmem
    exact decide_eq_true (h r c q (mem_pairs.1 hmem))

theorem isTotal_iff : m.isTotal = true ↔ (∀ r < m.referenceSize, ∃ c, m.comparisonFor? r = some c) ∧
    ∀ c < m.comparisonSize, ∃ r, m.referenceFor? c = some r := by
  rw [isTotal, Bool.and_eq_true, Array.all_eq_true, Array.all_eq_true]
  refine and_congr (forall_congr' fun r => forall_congr' fun hr => ?_)
    (forall_congr' fun c => forall_congr' fun hc => ?_)
  · rw [← hasReference_iff, hasReference, correspondence?, Array.getElem?_eq_getElem hr]
    rfl
  · rw [← hasComparison_iff, hasComparison, referenceFor?, Array.getElem?_eq_getElem hc]
    rfl

@[simp] theorem correspondence?_empty (referenceSize comparisonSize : Nat) :
    (empty referenceSize comparisonSize).correspondence? r = none := by
  unfold correspondence? empty
  rw [Array.getElem?_replicate]
  split <;> rfl

@[simp] theorem comparisonFor?_empty (referenceSize comparisonSize : Nat) :
    (empty referenceSize comparisonSize).comparisonFor? r = none := by
  rw [comparisonFor?_eq_none_iff, correspondence?_empty]

@[simp] theorem referenceFor?_empty (referenceSize comparisonSize : Nat) :
    (empty referenceSize comparisonSize).referenceFor? c = none := by
  unfold referenceFor? empty
  rw [Array.getElem?_replicate]
  split <;> rfl

/-- The pairs that an insertion accepts. -/
structure Free (m : Mapping) (r c : Nat) : Prop where
  reference : r < m.referenceSize
  comparison : c < m.comparisonSize
  reference_unmatched : m.hasReference r = false
  comparison_unmatched : m.hasComparison c = false

theorem free_iff : m.Free r c ↔ m.forward[r]? = some none ∧ m.backward[c]? = some none := by
  constructor
  · rintro ⟨hr, hc, hfree, hfree'⟩
    rw [hasReference_eq_false_iff, comparisonFor?_eq_none_iff, correspondence?] at hfree
    rw [hasComparison_eq_false_iff, referenceFor?] at hfree'
    rw [Array.getElem?_eq_getElem hr] at hfree ⊢
    rw [Array.getElem?_eq_getElem hc] at hfree' ⊢
    exact ⟨congrArg some hfree, congrArg some hfree'⟩
  · rintro ⟨hr, hc⟩
    exact {
      reference := (Array.getElem?_eq_some_iff.1 hr).1
      comparison := (Array.getElem?_eq_some_iff.1 hc).1
      reference_unmatched := by rw [hasReference, correspondence?, hr]; rfl
      comparison_unmatched := by rw [hasComparison, referenceFor?, hc]; rfl }

theorem insert?_free (h : m.insert? r c q = some m') :
    m.comparisonFor? r = none ∧ m.referenceFor? c = none := by
  obtain ⟨hr, hc, -⟩ := insert?_eq_some_iff.1 h
  rw [comparisonFor?_eq_none_iff, correspondence?, referenceFor?, hr, hc]
  exact ⟨rfl, rfl⟩

theorem correspondence?_insert? (h : m.insert? r c q = some m') (x : Nat) :
    m'.correspondence? x = if x = r then some ⟨c, q⟩ else m.correspondence? x := by
  obtain ⟨hr, -, rfl⟩ := insert?_eq_some_iff.1 h
  obtain ⟨hlt, -⟩ := Array.getElem?_eq_some_iff.1 hr
  unfold correspondence?
  split
  · rename_i hx
    rw [hx, Array.getElem?_setIfInBounds_self_of_lt hlt]
    rfl
  · rename_i hx
    rw [Array.getElem?_setIfInBounds_ne (Ne.symm hx)]

theorem comparisonFor?_insert? (h : m.insert? r c q = some m') (x : Nat) :
    m'.comparisonFor? x = if x = r then some c else m.comparisonFor? x := by
  rw [comparisonFor?, correspondence?_insert? h]
  split <;> rfl

theorem referenceFor?_insert? (h : m.insert? r c q = some m') (y : Nat) :
    m'.referenceFor? y = if y = c then some r else m.referenceFor? y := by
  obtain ⟨-, hc, rfl⟩ := insert?_eq_some_iff.1 h
  obtain ⟨hlt, -⟩ := Array.getElem?_eq_some_iff.1 hc
  unfold referenceFor?
  split
  · rename_i hy
    rw [hy, Array.getElem?_setIfInBounds_self_of_lt hlt]
    rfl
  · rename_i hy
    rw [Array.getElem?_setIfInBounds_ne (Ne.symm hy)]

theorem sizes_insert? (h : m.insert? r c q = some m') :
    m'.referenceSize = m.referenceSize ∧ m'.comparisonSize = m.comparisonSize := by
  obtain ⟨-, -, rfl⟩ := insert?_eq_some_iff.1 h
  exact ⟨Array.size_setIfInBounds, Array.size_setIfInBounds⟩

namespace Valid

variable {referenceSize comparisonSize : Nat}

theorem empty :
    (Mapping.empty referenceSize comparisonSize).Valid referenceSize comparisonSize where
  reference := Array.size_replicate
  comparison := Array.size_replicate
  agree r c := by
    rw [comparisonFor?_empty, referenceFor?_empty]
    constructor <;> simp

theorem insert (hm : m.Valid referenceSize comparisonSize) (h : m.insert? r c q = some m') :
    m'.Valid referenceSize comparisonSize where
  reference := (sizes_insert? h).1.trans hm.reference
  comparison := (sizes_insert? h).2.trans hm.comparison
  agree x y := by
    obtain ⟨hr, hc⟩ := insert?_free h
    rw [comparisonFor?_insert? h, referenceFor?_insert? h]
    by_cases hx : x = r <;> by_cases hy : y = c
    · rw [if_pos hx, if_pos hy, hx, hy]
      simp
    · rw [if_pos hx, if_neg hy, ← hm.agree, hx, hr, Option.some.injEq]
      simp [Ne.symm hy]
    · rw [if_neg hx, if_pos hy, hm.agree, hy, hc, Option.some.injEq]
      simp [Ne.symm hx]
    · rw [if_neg hx, if_neg hy]
      exact hm.agree x y

variable (hm : m.Valid referenceSize comparisonSize)

include hm

theorem lt_sizes (h : m.comparisonFor? r = some c) : r < referenceSize ∧ c < comparisonSize := by
  obtain ⟨q, hq⟩ := comparisonFor?_eq_some_iff.1 h
  rw [← hm.reference, ← hm.comparison]
  exact ⟨lt_referenceSize_of_correspondence? hq,
    lt_comparisonSize_of_referenceFor? ((hm.agree r c).1 h)⟩

theorem exists_insert? (hr : r < referenceSize) (hc : c < comparisonSize)
    (hfree : m.comparisonFor? r = none) (hfree' : m.referenceFor? c = none) (q : Quality) :
    ∃ m', m.insert? r c q = some m' := by
  obtain ⟨hforward, hbackward⟩ := free_iff.1 {
    reference := hm.reference.symm ▸ hr
    comparison := hm.comparison.symm ▸ hc
    reference_unmatched := hasReference_eq_false_iff.2 hfree
    comparison_unmatched := hasComparison_eq_false_iff.2 hfree' }
  exact ⟨_, insert?_eq_some_iff.2 ⟨hforward, hbackward, rfl⟩⟩

/-- No two reference nodes have the same partner. -/
theorem injective (hx : m.comparisonFor? x = some c) (hy : m.comparisonFor? y = some c) : x = y :=
  Option.some.inj (((hm.agree x c).1 hx).symm.trans ((hm.agree y c).1 hy))

theorem pairs_pairwise : m.pairs.Pairwise fun a b => a.2.comparison ≠ b.2.comparison := by
  refine m.pairs_pairwise.imp_of_mem fun ha hb hlt heq => ?_
  have hx := comparisonFor?_eq_some_iff.2 ⟨_, mem_pairs.1 ha⟩
  have hy := comparisonFor?_eq_some_iff.2 ⟨_, mem_pairs.1 hb⟩
  rw [← heq] at hy
  have := hm.injective hx hy
  omega

end Valid

/-- All pairs of the second mapping are pairs of the first one, with the same quality. -/
def Extends (m' m : Mapping) : Prop :=
  ∀ r found, m.correspondence? r = some found → m'.correspondence? r = some found

namespace Extends

theorem refl (m : Mapping) : m.Extends m :=
  fun _ _ h => h

theorem trans {m'' : Mapping} (h' : m''.Extends m') (h : m'.Extends m) : m''.Extends m :=
  fun r found hr => h' r found (h r found hr)

theorem of_insert? (h : m.insert? r c q = some m') : m'.Extends m := by
  intro x found hx
  rw [correspondence?_insert? h, if_neg]
  · exact hx
  · rintro rfl
    rw [comparisonFor?_eq_none_iff.1 (insert?_free h).1] at hx
    simp at hx

theorem comparisonFor? (h : m'.Extends m) (hr : m.comparisonFor? r = some c) :
    m'.comparisonFor? r = some c := by
  obtain ⟨q, hq⟩ := comparisonFor?_eq_some_iff.1 hr
  exact comparisonFor?_eq_some_iff.2 ⟨q, h r _ hq⟩

theorem hasReference (h : m'.Extends m) (hr : m.hasReference r = true) :
    m'.hasReference r = true := by
  obtain ⟨c, hc⟩ := hasReference_iff.1 hr
  exact hasReference_iff.2 ⟨c, h.comparisonFor? hc⟩

theorem unmatched (h : m'.Extends m) (hr : m'.comparisonFor? r = none) :
    m.comparisonFor? r = none := by
  cases hc : m.comparisonFor? r with
  | none => rfl
  | some c => rw [h.comparisonFor? hc] at hr; simp at hr

section Valid

variable {referenceSize comparisonSize : Nat} (h : m'.Extends m)
  (hm : m.Valid referenceSize comparisonSize) (hm' : m'.Valid referenceSize comparisonSize)

include h hm hm'

theorem hasComparison (hc : m.hasComparison c = true) : m'.hasComparison c = true := by
  obtain ⟨r, hr⟩ := hasComparison_iff.1 hc
  exact hasComparison_iff.2 ⟨r, (hm'.agree r c).1 (h.comparisonFor? ((hm.agree r c).2 hr))⟩

theorem unmatched_comparison (hc : m'.referenceFor? c = none) : m.referenceFor? c = none := by
  rw [← hasComparison_eq_false_iff, ← Bool.not_eq_true] at hc ⊢
  exact mt (h.hasComparison hm hm') hc

end Valid

end Extends
end Concordance.Mapping
