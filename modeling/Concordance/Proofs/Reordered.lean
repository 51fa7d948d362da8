import Concordance.Proofs.Content

/-!
# Reordered expressions

An expression is a reordering of another one if the two differ in the order of
stored children only. Both have the same root, the same parents and the same
depths then, and since signatures and subtree sizes do not depend on the order of
children, their signature tables are equal.
-/
namespace Concordance.Expression

variable {e e' : Expression} {n a : Nat}

/-- The nodes are the same, with the same children in whatever order. -/
structure Reordered (e e' : Expression) : Prop where
  size : e'.size = e.size
  kind? : ∀ n, e'.kind? n = e.kind? n
  children : ∀ n, (e'.children n).Perm (e.children n)

namespace Reordered

theorem refl (e : Expression) : e.Reordered e :=
  ⟨rfl, fun _ => rfl, fun _ => .refl _⟩

/-- It is enough to look at the nodes in range. -/
theorem of_lt (hsize : e'.size = e.size)
    (h : ∀ n < e.size, e'.kind? n = e.kind? n ∧ (e'.children n).Perm (e.children n)) :
    e.Reordered e' := by
  refine ⟨hsize, fun n => ?_, fun n => ?_⟩
  · by_cases hn : n < e.size
    · exact (h n hn).1
    · have hout := Nat.not_lt.1 hn
      rw [kind?_eq_none hout, kind?_eq_none (hsize ▸ hout)]
  · by_cases hn : n < e.size
    · exact (h n hn).2
    · have hout := Nat.not_lt.1 hn
      rw [children_of_size_le hout, children_of_size_le (hsize ▸ hout)]

variable (h : e.Reordered e')

include h

theorem root : e'.root = e.root := by
  rw [← kind?_eq_root_iff, ← h.kind?, kind?_eq_root_iff]

theorem mem_children : a ∈ e'.children n ↔ a ∈ e.children n :=
  (h.children n).mem_iff

theorem parent? (n : Nat) : e'.parent? n = e.parent? n := by
  apply Option.ext
  intro p
  rw [parent?_eq_some_iff, parent?_eq_some_iff, h.mem_children]

theorem ancestors (n : Nat) : e'.ancestors n = e.ancestors n := by
  have hclimb : ∀ k n, e'.climb k n = e.climb k n := by
    intro k
    induction k with
    | zero => intro n; rfl
    | succ k ih =>
      intro n
      rw [climb, climb, h.parent? n]
      cases e.parent? n with
      | none => rfl
      | some p => exact congrArg (p :: ·) (ih p)
  rw [Expression.ancestors, Expression.ancestors, h.size, hclimb]

theorem isAncestor (a n : Nat) : e'.isAncestor a n = e.isAncestor a n := by
  rw [Expression.isAncestor, Expression.isAncestor, h.ancestors]

theorem depth (n : Nat) : e'.depth n = e.depth n := by
  rw [Expression.depth, Expression.depth, h.ancestors]

theorem postOrder_perm : e'.postOrder.Perm e.postOrder := by
  have hperm := e'.postOrder_perm
  rw [h.size] at hperm
  exact hperm.trans e.postOrder_perm.symm

theorem extent (hn : n < e.size) : e'.extent n = e.extent n := by
  induction n, hn using induction_up with
  | parent n hn ih =>
    rw [extent_eq, extent_eq, List.map_congr_left fun c hc => ih c (h.mem_children.1 hc),
      total_perm ((h.children n).map e.extent)]

theorem get?_eq (hn : n < e.size) :
    (SignatureTable.ofExpression e').get? n = (SignatureTable.ofExpression e).get? n := by
  induction n, hn using induction_up with
  | parent n hn ih =>
    obtain ⟨k, hk⟩ := exists_kind? hn
    have hbelow : (e'.signaturesBelow n).Perm (e.signaturesBelow n) := by
      have hsame : e'.signaturesBelow n = (e'.children n).map
          fun c => ((SignatureTable.ofExpression e).get? c).getD Digest.zero := by
        apply List.map_congr_left
        intro c hc
        rw [ih c (h.mem_children.1 hc)]
      rw [hsame]
      exact (h.children n).map _
    rw [get?_eq_ofNode hk, get?_eq_ofNode ((h.kind? n).trans hk), Signature.ofNode,
      Signature.content_of_perm k hbelow, Signature.ofNode]

/-- Reordered expressions have the same signature table. -/
theorem ofExpression_eq : SignatureTable.ofExpression e' = SignatureTable.ofExpression e := by
  obtain ⟨hwidth, hheight⟩ := SignatureTable.sizes_ofExpression e
  obtain ⟨hwidth', hheight'⟩ := SignatureTable.sizes_ofExpression e'
  have hsize := h.size
  have hsignatures : (SignatureTable.ofExpression e').signatures =
      (SignatureTable.ofExpression e).signatures := by
    apply Array.ext_getElem?
    intro n
    by_cases hn : n < e.size
    · exact h.get?_eq hn
    · rw [Array.getElem?_eq_none (by omega), Array.getElem?_eq_none (by omega)]
  have hsizes : (SignatureTable.ofExpression e').sizes = (SignatureTable.ofExpression e).sizes := by
    apply Array.ext (by omega)
    intro n hn' hn
    have hsmall : n < e.size := by omega
    have hsmall' : n < e'.size := by omega
    have hextent := h.extent hsmall
    rw [← SignatureTable.subtreeSize_ofExpression hsmall,
      ← SignatureTable.subtreeSize_ofExpression hsmall'] at hextent
    simpa [SignatureTable.subtreeSize, hn, hn'] using hextent
  have hroot : (SignatureTable.ofExpression e').root = (SignatureTable.ofExpression e).root := by
    rw [SignatureTable.root_ofExpression, SignatureTable.root_ofExpression, h.root]
  have hfields : ∀ t u : SignatureTable, t.signatures = u.signatures → t.sizes = u.sizes →
      t.root = u.root → t = u := by
    intro t u ht hu hr
    cases t
    cases u
    simp_all
  exact hfields _ _ hsignatures hsizes hroot

end Reordered
end Concordance.Expression
