import Concordance.Proofs.Reports

/-!
# What an empty difference says

The walk over a merged graph goes down from pair to pair until it comes to a
leaf, a role restriction or a node without a partner. If nothing is reported, it
meets all nodes with no role restriction above them: each of them is in a pair,
and where it ends the pair has equal signatures. Approximate pairs may remain
above those ends, so the two expressions have the same content in what may be
another grouping.
-/
namespace Concordance

open Expression Matching

namespace Expression

variable {e : Expression} {n p c : Nat}

/-- No role restriction lies above a node. -/
def Exposed (e : Expression) (n : Nat) : Prop :=
  ∀ a k, e.isAncestor a n = true → e.kind? a = some k → k.isRole = false

theorem exposed_root (e : Expression) : e.Exposed e.root := by
  intro a k h
  rw [not_isAncestor_root] at h
  simp at h

/-- A child is exposed if its parent is, unless the parent is a role restriction. -/
theorem exposed_of_mem_children {k : Kind} (hc : c ∈ e.children p) (hk : e.kind? p = some k) :
    e.Exposed c ↔ e.Exposed p ∧ k.isRole = false := by
  constructor
  · intro h
    exact ⟨fun a k' ha => h a k' ((isAncestor_of_mem_children hc).2 (.inr ha)),
      h p k ((isAncestor_of_mem_children hc).2 (.inl rfl)) hk⟩
  · rintro ⟨hp, hrole⟩ a k' ha hk'
    rcases (isAncestor_of_mem_children hc).1 ha with rfl | ha
    · rw [hk] at hk'
      rwa [← Option.some.inj hk']
    · exact hp a k' ha hk'

/-- What holds of the exposed terminal nodes and passes from parents to children holds of all nodes
that are not exposed: above each of them there is an exposed role restriction. -/
theorem exposed_or_of_terminal {P : Nat → Prop}
    (hterminal : ∀ n < e.size, e.Exposed n → e.IsTerminal n → P n)
    (hbelow : ∀ p c, c ∈ e.children p → P p → P c) (hn : n < e.size) : e.Exposed n ∨ P n := by
  induction n, hn using induction_down with
  | root => exact .inl (exposed_root e)
  | child p c hc ih =>
    have hp := (lt_size_of_mem_children hc).2
    obtain ⟨k, hk⟩ := exists_kind? hp
    rcases ih with hexposed | hholds
    · cases hrole : k.isRole with
      | false => exact .inl ((exposed_of_mem_children hc hk).2 ⟨hexposed, hrole⟩)
      | true =>
        have hends : e.IsTerminal p := ⟨k, hk, by rw [hrole]; rfl⟩
        exact .inr (hbelow p c hc (hterminal p hp hexposed hends))
    · exact .inr (hbelow p c hc hholds)

end Expression

namespace Difference

open Merged

variable {p : Problem} {m : Mapping} {side : Side} {n r c : Nat}

section Unchanged

variable (hp : p.Own) (hm : Fair p m)
  (h : (ofMerged (build (p.input m)) m).isUnchanged = true)

include hp hm h

/-- If nothing is reported, the nodes at which the walk ends are kept. -/
theorem kept_of_isUnchanged (hn : Reached p m side n) (hstop : ¬ Passable p m side n) :
    Kept p m side n := by
  by_contra hnew
  obtain ⟨e, he, -⟩ := exists_report hp hm hn hstop hnew
  rw [isUnchanged_iff.1 h side] at he
  exact List.not_mem_nil he

/-- If nothing is reported, the walk comes to all exposed nodes: it could only end above one at a
leaf or a role restriction. -/
theorem reached_of_exposed (hroot : Reached p m side (p.tree side).root)
    (hn : n < (p.tree side).size) (hexposed : (p.tree side).Exposed n) : Reached p m side n := by
  rcases reached_or_stopped hm hroot hn with hreached | ⟨a, habove, hreached, hstop⟩
  · exact hreached
  · obtain ⟨r, c, q, hrc, -, hpick⟩ := kept_of_isUnchanged hp hm h hreached hstop
    have hterminal : (p.tree side).IsTerminal a := by
      by_contra hnot
      exact hstop ⟨⟨q, r, c, hrc, hpick⟩, hnot⟩
    obtain ⟨k, hk, hends⟩ := hterminal
    rw [hexposed a k habove hk, isLeaf_eq_false_of_isAncestor hn habove hk] at hends
    simp at hends

/-- If nothing is reported, every exposed node is in a pair, and where the walk ends the pair is of
alike nodes. -/
theorem exists_pair_of_exposed (side : Side) (hroot : Reached p m side (p.tree side).root)
    (hn : n < (p.tree side).size) (hexposed : (p.tree side).Exposed n) :
    ∃ r c q, m.correspondence? r = some ⟨c, q⟩ ∧ side.pick r c = n ∧
      ((p.tree side).IsTerminal n → p.Alike r c) := by
  have hreached := reached_of_exposed hp hm h hroot hn hexposed
  by_cases hpass : Passable p m side n
  · obtain ⟨⟨q, r, c, hrc, hpick⟩, hnot⟩ := hpass
    exact ⟨r, c, q, hrc, hpick, fun hterminal => absurd hterminal hnot⟩
  · obtain ⟨r, c, q, hrc, halike, hpick⟩ := kept_of_isUnchanged hp hm h hreached hpass
    exact ⟨r, c, q, hrc, hpick, fun _ => halike⟩

theorem exists_comparison_of_exposed (hr : r < p.reference.size)
    (hexposed : p.reference.Exposed r) :
    ∃ c q, m.correspondence? r = some ⟨c, q⟩ ∧ (p.reference.IsTerminal r → p.Alike r c) := by
  obtain ⟨x, c, q, hrc, rfl, hcontent⟩ :=
    exists_pair_of_exposed hp hm h .reference (reached_root_reference hm) hr hexposed
  exact ⟨c, q, hrc, hcontent⟩

theorem exists_reference_of_exposed
    (hroots : m.comparisonFor? p.reference.root = some p.comparison.root)
    (hc : c < p.comparison.size) (hexposed : p.comparison.Exposed c) :
    ∃ r q, m.correspondence? r = some ⟨c, q⟩ ∧ (p.reference.IsTerminal r → p.Alike r c) := by
  obtain ⟨r, y, q, hrc, rfl, hcontent⟩ := exists_pair_of_exposed hp hm h .comparison
    (reached_root_comparison hm hroots) hc hexposed
  exact ⟨r, q, hrc, fun hterminal =>
    hcontent (isTerminal_of_kind?_eq (kind?_pick hm hrc .comparison).symm hterminal)⟩

end Unchanged
end Difference
end Concordance
