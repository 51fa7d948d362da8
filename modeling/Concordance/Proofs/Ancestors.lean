import Concordance.Proofs.Layout
import Concordance.Proofs.Search

/-!
# Ancestors, seen three ways

The nodes above a node are found by following parents, the nodes below it by
following children, and a layout compares places in pre-order instead. In an
expression the three agree. Following parents is not bounded by anything but the
tree: the walk up comes to an end because it goes from every node to one of a
smaller depth, and the only node without a parent is the root.
-/
namespace Concordance.Expression

variable {e : Expression} {n m a p c : Nat}

/-- What a walk up from a node comes to next, after it has come to the given number of ancestors.
It starts at the parent and goes on for as long as there is one. -/
def ancestorAfter (e : Expression) (n : Nat) : (steps : Nat) → Option Nat
  | 0 => e.parent? n
  | steps + 1 => (e.ancestorAfter n steps).bind e.parent?

theorem ancestorAfter_of_mem_children (h : c ∈ e.children p) (k : Nat) :
    e.ancestorAfter c (k + 1) = e.ancestorAfter p k := by
  induction k with
  | zero =>
    have hparent : e.ancestorAfter c 0 = some p := parent?_eq_some_iff.2 h
    exact congrArg (·.bind e.parent?) hparent
  | succ k ih => rw [ancestorAfter, ih, ancestorAfter]

theorem ancestorAfter_root (e : Expression) (k : Nat) : e.ancestorAfter e.root k = none := by
  induction k with
  | zero => exact e.parent?_root
  | succ k ih => rw [ancestorAfter, ih, Option.bind_none]

theorem getElem?_ancestors (hn : n < e.size) (k : Nat) :
    (e.ancestors n)[k]? = e.ancestorAfter n k := by
  induction n, hn using induction_down generalizing k with
  | root => rw [ancestors_root, List.getElem?_nil, ancestorAfter_root]
  | child p c hc ih =>
    rw [ancestors_of_mem_children hc]
    cases k with
    | zero => rw [List.getElem?_cons_zero, ancestorAfter, parent?_eq_some_iff.2 hc]
    | succ k => rw [List.getElem?_cons_succ, ih, ancestorAfter_of_mem_children hc]

theorem ancestors_nodup (hn : n < e.size) : (e.ancestors n).Nodup := by
  induction n, hn using induction_down with
  | root => rw [ancestors_root]; exact .nil
  | child p c hc ih =>
    rw [ancestors_of_mem_children hc, List.nodup_cons]
    refine ⟨fun h => ?_, ih⟩
    have := (depth_lt_of_isAncestor (lt_size_of_mem_children hc).2 (isAncestor_iff.2 h)).2
    omega

/-- The walk up ends at the root, and it is empty for the root itself. -/
theorem getLast?_ancestors (hn : n < e.size) :
    (e.ancestors n).getLast? = if n = e.root then none else some e.root := by
  induction n, hn using induction_down with
  | root => rw [ancestors_root, if_pos rfl, List.getLast?_nil]
  | child p c hc ih =>
    have hroot : c ≠ e.root := fun h => e.root_notMem_children p (h ▸ hc)
    rw [ancestors_of_mem_children hc, List.getLast?_cons, ih, if_neg hroot]
    split <;> simp_all

/-- The nodes above a node are the others that lead down to it. -/
theorem isAncestor_iff_reaches (hn : n < e.size) :
    e.isAncestor a n = true ↔ n ≠ a ∧ Relation.ReflTransGen e.graph.Edge a n := by
  constructor
  · intro h
    constructor
    · rintro rfl
      exact Nat.lt_irrefl _ (depth_lt_of_isAncestor hn h).2
    · refine induction_below .refl ?_ hn (.inr h)
      intro p c hc hpath
      exact hpath.tail hc
  · rintro ⟨hne, hpath⟩
    have hbelow : e.InSubtree a n := by
      clear hn hne
      induction hpath with
      | refl => exact .inl rfl
      | tail _ hc ih => exact .inr ((isAncestor_of_mem_children hc).2 ih)
    exact hbelow.resolve_left hne

/-- Places in a layout, parents and children agree about which nodes are above a node. The
ancestors of a node are the walk along its parents, which comes to no node twice and ends at the
root; their number is the depth of the node, in the layout as well. -/
theorem ancestor_views_agree (e : Expression) :
    (∀ a < e.size, ∀ n < e.size,
      ((Layout.ofExpression e).encloses a n = e.isAncestor a n ∧
        (e.isAncestor a n = true ↔ n ≠ a ∧ Relation.ReflTransGen e.graph.Edge a n))) ∧
    ∀ n < e.size,
      (∀ k, (e.ancestors n)[k]? = e.ancestorAfter n k) ∧ (e.ancestors n).Nodup ∧
        (e.ancestors n).getLast? = (if n = e.root then none else some e.root) ∧
        (Layout.ofExpression e).depth n = e.depth n ∧ e.depth n = (e.ancestors n).length := by
  constructor
  · intro a ha n hn
    exact ⟨Bool.eq_iff_iff.2 (Layout.encloses_iff ha hn), isAncestor_iff_reaches hn⟩
  · intro n hn
    exact ⟨getElem?_ancestors hn, ancestors_nodup hn, getLast?_ancestors hn, Layout.depth_eq hn, rfl⟩

/-- Two concepts in a conjunction, one of them below a role. -/
def Sample.group : Expression where
  nodes := .ofList [⟨.concept 1, []⟩, ⟨.existential 7, [0]⟩, ⟨.concept 2, []⟩,
    ⟨.conjunction, [2, 1]⟩, ⟨.necessarySet, [3]⟩, ⟨.root, [4]⟩]
  root := 5
  parents := #[some 1, some 3, some 3, some 4, some 5, none]
  valid := by decide +kernel

theorem ancestor_views_agree_group :
    (Layout.ofExpression Sample.group).encloses 3 0 = true ∧
      Relation.ReflTransGen Sample.group.graph.Edge 3 0 ∧
      Sample.group.ancestorAfter 0 3 = some 5 ∧ Sample.group.ancestorAfter 0 4 = none ∧
      (Sample.group.ancestors 0).getLast? = some 5 ∧
      (Layout.ofExpression Sample.group).depth 0 = 4 := by
  have hlist : Sample.group.ancestors 0 = [1, 3, 4, 5] := by decide +kernel
  obtain ⟨habove, hlists⟩ := ancestor_views_agree Sample.group
  obtain ⟨hencloses, hreaches⟩ := habove 3 (by decide) 0 (by decide)
  obtain ⟨hwalk, -, hlast, hdepth, hlength⟩ := hlists 0 (by decide)
  have hancestor : Sample.group.isAncestor 3 0 = true := by decide +kernel
  refine ⟨hencloses.trans hancestor, (hreaches.1 hancestor).2, ?_, ?_, hlast, ?_⟩
  · rw [← hwalk, hlist]
    rfl
  · rw [← hwalk, hlist]
    rfl
  · rw [hdepth, hlength, hlist]
    rfl

end Concordance.Expression
