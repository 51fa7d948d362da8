import Concordance.Proofs.Matching.Refusal

/-!
# Crossing pairs

A pair is refused for its ancestors and descendants if it crosses another pair:
on one side it is above the other pair and on the other side below it. Whether
two pairs cross is a matter of the two expressions alone, so a further pair takes
nothing but the pairs it crosses from those that would be accepted.
-/
namespace Concordance

/-- Pairs of different nodes can be added in either order. -/
theorem Mapping.insert?_comm {m a b : Mapping} {r r' c c' : Nat} {q q' : Quality}
    (ha : m.insert? r c q = some a) (hb : m.insert? r' c' q' = some b) (hr : r ≠ r') (hc : c ≠ c') :
    ∃ d, a.insert? r' c' q' = some d ∧ b.insert? r c q = some d := by
  obtain ⟨hforward, hbackward, rfl⟩ := insert?_eq_some_iff.1 ha
  obtain ⟨hforward', hbackward', rfl⟩ := insert?_eq_some_iff.1 hb
  refine ⟨_, insert?_eq_some_iff.2 ⟨?_, ?_, rfl⟩, insert?_eq_some_iff.2 ⟨?_, ?_, ?_⟩⟩
  · rwa [Array.getElem?_setIfInBounds_ne hr]
  · rwa [Array.getElem?_setIfInBounds_ne hc]
  · rwa [Array.getElem?_setIfInBounds_ne hr.symm]
  · rwa [Array.getElem?_setIfInBounds_ne hc.symm]
  · rw [Array.setIfInBounds_comm _ _ hr, Array.setIfInBounds_comm _ _ hc]

namespace Matching

open Expression

variable {p : Problem} {m m' : Mapping} {r c x y : Nat} {q : Quality}

namespace Problem

/-- Two pairs cross if the node of one of them is above that of the other on the reference side and
below it on the comparison side. -/
def Crosses (p : Problem) (x y r c : Nat) : Prop :=
  (p.reference.isAncestor x r = true ∧ p.comparison.isAncestor c y = true) ∨
    (p.reference.isAncestor r x = true ∧ p.comparison.isAncestor y c = true)

/-- A problem with the default safeguards. -/
structure Guarded (p : Problem) : Prop extends p.Own where
  safeguards : p.safeguards = {}

theorem guarded_ofExpressions (reference comparison : Expression) (config : Config) :
    (ofExpressions reference comparison config).Guarded :=
  ⟨own_ofExpressions reference comparison config, rfl⟩

theorem Own.inverts_iff (hp : p.Own) (hm : m.Valid p.reference.size p.comparison.size)
    (hr : r < p.reference.size) (hc : c < p.comparison.size) :
    p.inverts m r c = true ↔ ∃ x y, m.comparisonFor? x = some y ∧ p.Crosses x y r c := by
  simp only [inverts, Bool.or_eq_true, List.any_eq_true, List.mem_filterMap, Crosses,
    isAncestor_iff]
  constructor
  · rintro (⟨y, ⟨x, hx, hxy⟩, hencloses⟩ | ⟨x, ⟨y, hy, hyx⟩, hencloses⟩)
    · rw [hp.comparisonLayout, Layout.encloses_iff hc (hm.lt_sizes hxy).2, isAncestor_iff]
        at hencloses
      exact ⟨x, y, hxy, .inl ⟨hx, hencloses⟩⟩
    · have hxy := (hm.agree x y).2 hyx
      rw [hp.referenceLayout, Layout.encloses_iff hr (hm.lt_sizes hxy).1, isAncestor_iff]
        at hencloses
      exact ⟨x, y, hxy, .inr ⟨hencloses, hy⟩⟩
  · rintro ⟨x, y, hxy, hcross⟩
    obtain ⟨hx, hy⟩ := hm.lt_sizes hxy
    rcases hcross with ⟨hxr, hcy⟩ | ⟨hrx, hyc⟩
    · refine .inl ⟨y, ⟨x, hxr, hxy⟩, ?_⟩
      rwa [hp.comparisonLayout, Layout.encloses_iff hc hy, isAncestor_iff]
    · refine .inr ⟨x, ⟨y, hyc, (hm.agree x y).1 hxy⟩, ?_⟩
      rwa [hp.referenceLayout, Layout.encloses_iff hr hx, isAncestor_iff]

namespace Guarded

variable (hp : p.Guarded)

include hp

theorem admits_iff (hm : m.Valid p.reference.size p.comparison.size)
    (hr : r < p.reference.size) (hc : c < p.comparison.size) :
    p.admits m r c = true ↔ p.reference.kind? r = p.comparison.kind? c ∧
      ∀ x y, m.comparisonFor? x = some y → ¬ p.Crosses x y r c := by
  have hinverts := hp.inverts_iff hm hr hc
  rw [admits, Bool.and_eq_true, kindsAgree, beq_iff_eq, hp.safeguards, Bool.true_and,
    Bool.not_eq_true', ← Bool.not_eq_true, hinverts]
  simp

/-- A further pair only refuses what it crosses. -/
theorem admits_insert?_iff (hm : m.Valid p.reference.size p.comparison.size)
    (hr : r < p.reference.size) (hc : c < p.comparison.size)
    (hinsert : m.insert? x y q = some m') :
    p.admits m' r c = true ↔ p.admits m r c = true ∧ ¬ p.Crosses x y r c := by
  rw [hp.admits_iff (hm.insert hinsert) hr hc, hp.admits_iff hm hr hc, and_assoc]
  apply and_congr_right
  intro _
  constructor
  · intro h
    refine ⟨fun a b hab => ?_, h x y (by rw [Mapping.comparisonFor?_insert? hinsert, if_pos rfl])⟩
    exact h a b ((Mapping.Extends.of_insert? hinsert).comparisonFor? hab)
  · rintro ⟨hold, hnew⟩ a b hab
    rw [Mapping.comparisonFor?_insert? hinsert] at hab
    split at hab
    · rename_i hax
      rwa [hax, ← Option.some.inj hab]
    · exact hold a b hab

end Guarded
end Problem

end Matching
end Concordance
