import Concordance.Codec.Mapping
import Concordance.Proofs.Persistence
import Concordance.Proofs.Views

/-!
# Mappings from bytes

The two lists of a mapping are written and read one by one. Reading checks the
width of every node, and nothing else: not that the nodes are nodes of the other
side, and not that the lists agree. So bytes can hold any two lists, and what is
read from them is a partial bijection only if it is a mapping that insertions
could have built.
-/
namespace Concordance

open Cbor (Item Means)

namespace Cbor.Item

variable {α : Type} {read : Item → Option α} {i : Item}

theorem lt_of_natBelow? {bound n : Nat} (h : i.natBelow? bound = some n) : n < bound := by
  unfold natBelow? at h
  split at h
  · split at h
    · simp_all
    · simp at h
  · simp at h

theorem exists_of_option? {v : α} (h : i.option? read = some (some v)) : ∃ j, read j = some v := by
  unfold option? at h
  split at h
  · simp at h
  · obtain ⟨w, hw, heq⟩ := Option.map_eq_some_iff.1 h
    exact ⟨_, by rw [hw, heq]⟩

theorem exists_of_mem_list? {values : List α} (h : i.list? read = some values) {v : α}
    (hv : v ∈ values) : ∃ j, read j = some v := by
  unfold list? at h
  split at h
  · rename_i items _
    clear * - h hv
    induction items generalizing values with
    | nil => simp_all
    | cons item items ih =>
      simp only [List.mapM_cons, Option.bind_eq_bind, Option.bind_eq_some_iff, Option.pure_def,
        Option.some.injEq] at h
      obtain ⟨w, hw, rest, hrest, rfl⟩ := h
      cases hv with
      | head => exact ⟨item, hw⟩
      | tail _ hv => exact ih hv hrest
  · simp at h

end Cbor.Item

theorem Correspondence.lt_of_ofItem? {i : Item} {found : Correspondence}
    (h : ofItem? i = some found) : found.comparison < 2 ^ 32 := by
  simp only [ofItem?, Option.bind_eq_bind, Option.bind_eq_some_iff] at h
  obtain ⟨slots, -, h⟩ := h
  split at h
  · simp only [Option.bind_eq_some_iff, Item.required?, Option.pure_def, Option.some.injEq] at h
    obtain ⟨comparison, ⟨slot, -, hcomparison⟩, quality, -, rfl⟩ := h
    exact Item.lt_of_natBelow? hcomparison
  · simp at h

theorem Correspondence.means {found : Correspondence} (h : found.comparison < 2 ^ 32) :
    Means 1 Correspondence.ofItem? found.toItem found := by
  have hcomparison : Means 0 Item.index? _ _ := .index h
  have hquality : Means 0 Quality.ofItem? _ _ := found.quality.means
  refine .record (by decide : Item.Named ["comparison", "quality"]) rfl ?_ fun hslots => ?_
  · simp [hcomparison.readable, hquality.readable]
  · simp [ofItem?, hslots, Item.required?, hcomparison.value, hquality.value]

namespace Mapping

/-- The mapping that bytes are decoded to. -/
def decoded? (bytes : List UInt8) : Option Mapping :=
  (Cbor.decode? bytes).bind ofItem?

/-- Mappings whose nodes have the width of positions. -/
@[mk_iff]
structure StoresPositions (m : Mapping) : Prop where
  forward : ∀ entry ∈ m.forward.toList, ∀ found ∈ entry, found.comparison < 2 ^ 32
  backward : ∀ entry ∈ m.backward.toList, ∀ r ∈ entry, r < 2 ^ 32

instance (m : Mapping) : Decidable m.StoresPositions :=
  decidable_of_iff _ m.storesPositions_iff.symm

theorem storesPositions_of_ofItem? {i : Item} {m : Mapping} (h : ofItem? i = some m) :
    m.StoresPositions := by
  simp only [ofItem?, Option.bind_eq_bind, Option.bind_eq_some_iff] at h
  obtain ⟨slots, -, h⟩ := h
  split at h
  · simp only [Option.bind_eq_some_iff, Item.required?, Option.pure_def, Option.some.injEq] at h
    obtain ⟨forward, ⟨_, -, hforward⟩, backward, ⟨_, -, hbackward⟩, rfl⟩ := h
    constructor
    · rintro entry hentry found rfl
      obtain ⟨j, hj⟩ := Item.exists_of_mem_list? hforward hentry
      obtain ⟨k, hk⟩ := Item.exists_of_option? hj
      exact Correspondence.lt_of_ofItem? hk
    · rintro entry hentry r rfl
      obtain ⟨j, hj⟩ := Item.exists_of_mem_list? hbackward hentry
      obtain ⟨k, hk⟩ := Item.exists_of_option? hj
      exact Item.lt_of_natBelow? hk
  · simp at h

theorem means {m : Mapping} (h : m.StoresPositions) (hreference : m.referenceSize < 2 ^ 64)
    (hcomparison : m.comparisonSize < 2 ^ 64) : Means 3 ofItem? m.toItem m := by
  have hforward : Means 2 (Item.list? (Item.option? Correspondence.ofItem?)) _ _ :=
    .list (by simpa [referenceSize] using hreference) fun entry hentry =>
      .option (by simp [Correspondence.toItem, Item.record]) fun found hfound =>
        Correspondence.means (h.forward entry hentry found hfound)
  have hbackward : Means 2 (Item.list? (Item.option? Item.index?)) _ _ :=
    .list (by simpa [comparisonSize] using hcomparison) fun entry hentry =>
      .option (by simp) fun r hr => .index (h.backward entry hentry r hr)
  refine .record (by decide : Item.Named ["forward", "backward"]) rfl ?_ fun hslots => ?_
  · simp [hforward.readable, hbackward.readable]
  · simp [ofItem?, hslots, Item.required?, hforward.value, hbackward.value]

theorem decoded?_encode {m : Mapping} (h : m.StoresPositions) (hreference : m.referenceSize < 2 ^ 64)
    (hcomparison : m.comparisonSize < 2 ^ 64) : decoded? (Cbor.encode m.toItem) = some m := by
  have hm := (means h hreference hcomparison).mono (by decide : 3 ≤ Cbor.nestingLimit)
  simp [decoded?, Cbor.decode?_encode hm.readable, hm.value]

/-- Decoding takes both lists as they are: it gives every mapping whose nodes have their width, and
of these the ones whose lists agree are those that insertions build. -/
theorem decoded_as_written (m : Mapping) (hreference : m.referenceSize < 2 ^ 64)
    (hcomparison : m.comparisonSize < 2 ^ 64) :
    ((∃ bytes, decoded? bytes = some m) ↔ m.StoresPositions) ∧
      ((∀ r c, m.comparisonFor? r = some c ↔ m.referenceFor? c = some r) ↔
        ∃ pairs, m = (empty m.referenceSize m.comparisonSize).insertAll pairs) := by
  constructor
  · constructor
    · rintro ⟨bytes, h⟩
      obtain ⟨i, -, hi⟩ := Option.bind_eq_some_iff.1 h
      exact storesPositions_of_ofItem? hi
    · exact fun h => ⟨_, decoded?_encode h hreference hcomparison⟩
  · rw [← Valid.iff_insertAll]
    exact ⟨fun h => ⟨rfl, rfl, h⟩, Valid.agree⟩

end Mapping

/-- Two reference nodes with one partner, which is no node of the comparison side. -/
def Sample.disagreeing : Mapping where
  forward := #[some ⟨1, .exact⟩, some ⟨1, .exact⟩]
  backward := #[none]

/-- The two lists one after another, each partner on two lines. -/
def Sample.disagreeingBytes : List UInt8 :=
  [0xa2, 0x67, 0x66, 0x6f, 0x72, 0x77, 0x61, 0x72, 0x64, 0x82,
   0xa2, 0x6a, 0x63, 0x6f, 0x6d, 0x70, 0x61, 0x72, 0x69, 0x73, 0x6f, 0x6e, 0x01,
   0x67, 0x71, 0x75, 0x61, 0x6c, 0x69, 0x74, 0x79, 0x65, 0x45, 0x78, 0x61, 0x63, 0x74,
   0xa2, 0x6a, 0x63, 0x6f, 0x6d, 0x70, 0x61, 0x72, 0x69, 0x73, 0x6f, 0x6e, 0x01,
   0x67, 0x71, 0x75, 0x61, 0x6c, 0x69, 0x74, 0x79, 0x65, 0x45, 0x78, 0x61, 0x63, 0x74,
   0x68, 0x62, 0x61, 0x63, 0x6b, 0x77, 0x61, 0x72, 0x64, 0x81, 0xf6]

namespace Mapping

theorem decoded_as_written_disagreeing :
    2 < 2 ^ 64 ∧ 1 < 2 ^ 64 ∧ (∃ bytes, decoded? bytes = some Sample.disagreeing) ∧
      ¬ ∃ pairs, Sample.disagreeing = (empty 2 1).insertAll pairs := by
  obtain ⟨hread, hbuilt⟩ := decoded_as_written Sample.disagreeing (by decide) (by decide)
  refine ⟨by decide, by decide, hread.2 (by decide), fun hpairs => ?_⟩
  have hagree := (hbuilt.2 hpairs 0 1).1 (by decide)
  exact absurd hagree (by decide)

/-- Bytes of lists that disagree are decoded without an error. -/
theorem decoded_disagreeing :
    decoded? Sample.disagreeingBytes = some Sample.disagreeing ∧
      Sample.disagreeing.comparisonFor? 0 = some 1 ∧
      Sample.disagreeing.comparisonFor? 1 = some 1 ∧
      Sample.disagreeing.referenceFor? 1 = none ∧ Sample.disagreeing.comparisonSize = 1 ∧
      ¬ Sample.disagreeing.Valid 2 1 :=
  ⟨by decide +kernel, by decide, by decide, by decide, by decide,
    fun h => absurd ((h.agree 0 1).1 (by decide)) (by decide)⟩

end Mapping
end Concordance
