import Concordance.Proofs.Merged.Rooted

/-!
# The two sides of a merged graph

A merged node that is no conjunction stands for a reference node, for a
comparison node, or for a pair of both. What is said about the nodes of one side
holds of the other side in the same way, so the side is a parameter here: a step
down in the merged graph is a step from a node to a child on one of the sides,
and the two nodes of a pair have one place.
-/
namespace Concordance

/-- What belongs to a side, of two things that belong to the reference and to the comparison. -/
def Side.pick {α : Type} (side : Side) (ofReference ofComparison : α) : α :=
  match side with
  | .reference => ofReference
  | .comparison => ofComparison

/-- The node of a side that an origin stands for. -/
def Origin.node? (o : Origin) (side : Side) : Option Nat :=
  side.pick o.reference? o.comparison?

/-- A node of a side is in a pair of some quality. -/
def Mapping.InPair (m : Mapping) (side : Side) (q : Quality) (n : Nat) : Prop :=
  ∃ r c, m.correspondence? r = some ⟨c, q⟩ ∧ side.pick r c = n

/-- A node is in one pair only. -/
theorem Mapping.Valid.pair_unique {m : Mapping} {referenceSize comparisonSize r c x y : Nat}
    {q q' : Quality} (hm : m.Valid referenceSize comparisonSize) {side : Side}
    (h : m.correspondence? r = some ⟨c, q⟩) (h' : m.correspondence? x = some ⟨y, q'⟩)
    (heq : side.pick r c = side.pick x y) : r = x ∧ c = y ∧ q = q' := by
  have hrx : r = x := by
    cases side with
    | reference => exact heq
    | comparison =>
      obtain rfl : c = y := heq
      exact hm.injective (comparisonFor?_eq_some_iff.2 ⟨q, h⟩)
        (comparisonFor?_eq_some_iff.2 ⟨q', h'⟩)
  subst hrx
  rw [h] at h'
  obtain ⟨hc, hq⟩ := Correspondence.mk.inj (Option.some.inj h')
  exact ⟨rfl, hc, hq⟩

namespace Merged.Input

open Expression

variable {i : Input} {side side' : Side} {n x a b r c k : Nat} {q : Quality} {o : Origin}

/-- The expression of a side. -/
def tree (i : Input) (side : Side) : Expression :=
  side.pick i.reference i.comparison

/-- The origin that a node of a side stands behind. -/
def origin (i : Input) (side : Side) (n : Nat) : Origin :=
  side.pick (i.referenceOrigin n) (i.comparisonOrigin n)

/-- A merged index is the place of a node of a side. -/
def Place (i : Input) (side : Side) (n k : Nat) : Prop :=
  i.origins[k]? = some (i.origin side n)

theorem Place.unique (h : i.Place side n a) (h' : i.Place side' x a) :
    i.origin side n = i.origin side' x :=
  Option.some.inj (h.symm.trans h')

section Paired

variable (hi : i.Paired)

include hi

theorem node?_origin (side : Side) (n : Nat) : (i.origin side n).node? side = some n := by
  cases side with
  | reference => exact i.reference?_referenceOrigin n
  | comparison => exact comparison?_comparisonOrigin hi n

theorem origin_injective (h : i.origin side n = i.origin side x) : n = x := by
  have hn := node?_origin hi side n
  rw [h, node?_origin hi side x] at hn
  exact (Option.some.inj hn).symm

theorem origin_of_pair (h : i.mapping.correspondence? r = some ⟨c, q⟩) (side : Side) :
    i.origin side (side.pick r c) = .shared r c q := by
  have hreference := referenceOrigin_of_some hi h
  cases side with
  | reference => exact hreference
  | comparison =>
    have hc := (hi.agree r c).1 (Mapping.comparisonFor?_eq_some_iff.2 ⟨q, h⟩)
    show i.comparisonOrigin c = _
    rw [comparisonOrigin, hc]
    exact hreference

/-- A node that is in no pair stands behind an origin of its own. -/
theorem origin_of_unpaired (h : ∀ q, ¬ i.mapping.InPair side q n) :
    i.origin side n = side.pick (.reference n) (.comparison n) := by
  cases side with
  | reference =>
    apply referenceOrigin_of_none
    cases hr : i.mapping.correspondence? n with
    | none => rfl
    | some found => exact absurd ⟨n, found.comparison, hr, rfl⟩ (h found.quality)
  | comparison =>
    apply comparisonOrigin_of_none
    cases hc : i.mapping.referenceFor? n with
    | none => rfl
    | some r =>
      obtain ⟨q, hq⟩ := Mapping.comparisonFor?_eq_some_iff.1 ((hi.agree r n).2 hc)
      exact absurd ⟨r, n, hq, rfl⟩ (h q)

/-- A node of a side stands behind its pair or by itself. -/
theorem origin_cases (side : Side) (n : Nat) :
    (∃ r c q, i.mapping.correspondence? r = some ⟨c, q⟩ ∧ side.pick r c = n ∧
      i.origin side n = .shared r c q) ∨
    ((∀ q, ¬ i.mapping.InPair side q n) ∧
      i.origin side n = side.pick (.reference n) (.comparison n)) := by
  by_cases hpair : ∃ q, i.mapping.InPair side q n
  · obtain ⟨q, r, c, hrc, rfl⟩ := hpair
    exact .inl ⟨r, c, q, hrc, rfl, origin_of_pair hi hrc side⟩
  · have hfree := fun q hq => hpair ⟨q, hq⟩
    exact .inr ⟨hfree, origin_of_unpaired hi hfree⟩

theorem correspondence?_of_origin (h : i.origin side n = .shared r c q) :
    i.mapping.correspondence? r = some ⟨c, q⟩ := by
  rcases origin_cases hi side n with ⟨x, y, q', hxy, -, hshared⟩ | ⟨-, hown⟩
  · obtain ⟨rfl, rfl, rfl⟩ := Origin.shared.inj (hshared.symm.trans h)
    exact hxy
  · rw [h] at hown
    cases side <;> simp [Side.pick] at hown

/-- Nodes of the two sides behind one origin are a pair; on one side they are the same node. -/
theorem pair_of_origin_eq (h : i.origin side' x = i.origin side n) :
    (side' = side ∧ x = n) ∨ ∃ r c q, i.mapping.correspondence? r = some ⟨c, q⟩ ∧
      side.pick r c = n ∧ side'.pick r c = x := by
  by_cases hside : side' = side
  · subst hside
    exact .inl ⟨rfl, origin_injective hi h⟩
  · refine .inr ?_
    rcases origin_cases hi side n with ⟨r, c, q, hrc, rfl, -⟩ | ⟨-, hown⟩
    · refine ⟨r, c, q, hrc, rfl, ?_⟩
      have hpair := origin_of_pair hi hrc
      exact origin_injective hi ((hpair side').trans (h.trans (hpair side)).symm)
    · -- an origin of its own has no node of the other side
      have hx := node?_origin hi side' x
      rw [h, hown] at hx
      cases side <;> cases side' <;>
        simp [Side.pick, Origin.node?, Origin.reference?, Origin.comparison?] at hx hside

theorem exists_place (side : Side) (hn : n < (i.tree side).size) : ∃ k, i.Place side n k := by
  apply List.mem_iff_getElem?.1
  cases side with
  | reference => exact referenceOrigin_mem hi hn
  | comparison => exact comparisonOrigin_mem hi hn

/-- An origin with a node of a side is the origin of that node. -/
theorem eq_origin (ho : o ∈ i.origins) (hn : o.node? side = some n) :
    n < (i.tree side).size ∧ o = i.origin side n := by
  cases side with
  | reference => exact eq_referenceOrigin hi ho hn
  | comparison => exact eq_comparisonOrigin hi ho hn

theorem Place.lt_size (h : i.Place side n k) : n < (i.tree side).size :=
  (eq_origin hi (List.mem_of_getElem? h) (node?_origin hi side n)).1

theorem place_of_node? {v : MergedNode} (hv : (build i).nodes.get? k = some v)
    (hn : v.origin.node? side = some n) : i.Place side n k := by
  by_cases hk : k < i.origins.length
  · have ho := List.getElem?_eq_getElem hk
    obtain ⟨w, hw, horigin, -⟩ := exists_node_of_origin ho
    obtain rfl : w = v := Option.some.inj (hw.symm.trans hv)
    rw [horigin] at hn
    rw [Place, ho, (eq_origin hi (List.mem_of_getElem? ho) hn).2]
  · obtain ⟨owner, o, -, -, -, rfl⟩ := get?_build_of_le (Nat.not_lt.1 hk) hv
    cases side <;> simp [conjunctionOf, Origin.node?, Side.pick, Origin.reference?,
      Origin.comparison?] at hn

/-- A step down is a step from a node to its child on one of the sides. -/
theorem below_iff_place : i.Below a b ↔
    ∃ side n x, x ∈ (i.tree side).children n ∧ i.Place side n a ∧ i.Place side x b := by
  rw [below_iff hi]
  constructor
  · rintro (⟨r, x, hx, ha, hb⟩ | ⟨c, y, hy, ha, hb⟩)
    · exact ⟨.reference, r, x, hx, ha, hb⟩
    · exact ⟨.comparison, c, y, hy, ha, hb⟩
  · rintro ⟨side, n, x, hx, ha, hb⟩
    cases side with
    | reference => exact .inl ⟨n, x, hx, ha, hb⟩
    | comparison => exact .inr ⟨n, x, hx, ha, hb⟩

theorem place_root (hroots : i.mapping.comparisonFor? i.reference.root = some i.comparison.root)
    (side : Side) : i.Place side (i.tree side).root (build i).root := by
  cases side with
  | reference => exact getElem?_origins_root hi
  | comparison =>
    exact (comparisonIndex_eq_some_iff hi i.comparison.root_lt_size).1
      (comparisonIndex_root hi hroots)

end Paired
end Merged.Input
end Concordance
