import Concordance.Expression.Layout
import Concordance.Proofs.Subtree
import Concordance.Proofs.Tables
import Mathlib.Data.List.Basic

/-!
# What a layout says about an expression

The positions of a layout are places in pre-order, the extents are sizes of
subtrees, and the depths are those of the tree. A subtree fills an interval of
places, so the comparison of places decides whether one node is above another.
-/
namespace Concordance

theorem length_flatMap_eq_total (f : Nat → List Nat) (xs : List Nat) :
    (xs.flatMap f).length = total (xs.map fun x => (f x).length) := by
  induction xs with
  | nil => rfl
  | cons x xs ih => rw [List.flatMap_cons, List.length_append, ih, List.map_cons, total_cons]

theorem total_perm {xs ys : List Nat} (h : xs.Perm ys) : total xs = total ys := by
  induction h with
  | nil => rfl
  | cons x _ ih => rw [total_cons, total_cons, ih]
  | swap x y xs => simp only [total_cons]; omega
  | trans _ _ ih ih' => rw [ih, ih']

namespace Expression

variable {e : Expression} {n m a p c : Nat}

theorem preOrder_pairwise (e : Expression) : e.preOrder.Pairwise fun a b => a ∉ e.children b := by
  rw [List.pairwise_iff_getElem]
  intro i j hi hj hij hchild
  have hlt := rank_lt_of_mem_children hchild
  have hnodup := e.listed_preOrder.nodup
  rw [rank, rank, hnodup.idxOf_getElem, hnodup.idxOf_getElem] at hlt
  omega

theorem subtree_nested (hn : n < e.size) (ha : a ∈ e.subtree n) : e.subtree a <:+: e.subtree n := by
  induction n, hn using induction_up with
  | parent n hn ih =>
    rw [subtree_eq] at ha
    rcases List.mem_cons.1 ha with rfl | ha
    · exact List.infix_refl _
    · obtain ⟨c, hc, ha⟩ := List.mem_flatMap.1 ha
      rw [subtree_eq e n]
      exact (ih c hc ha).trans ((List.infix_flatMap_of_mem hc e.subtree).trans
        (List.infix_cons (List.infix_refl _)))

/-- Number of nodes in a subtree. -/
def extent (e : Expression) (n : Nat) : Nat :=
  (e.subtree n).length

theorem extent_eq (e : Expression) (n : Nat) :
    e.extent n = total ((e.children n).map e.extent) + 1 := by
  rw [extent, subtree_eq, List.length_cons, length_flatMap_eq_total]
  rfl

theorem extent_lt_of_mem_children (h : c ∈ e.children p) : e.extent c < e.extent p := by
  have := (List.infix_flatMap_of_mem h e.subtree).length_le
  rw [extent, extent, subtree_eq e p, List.length_cons]
  omega

theorem extent_lt_of_isAncestor (hn : n < e.size) (h : e.isAncestor a n = true) :
    e.extent n < e.extent a := by
  induction n, hn using induction_down with
  | root => rw [not_isAncestor_root] at h; simp at h
  | child p c hc ih =>
    have hlt := extent_lt_of_mem_children hc
    rcases (isAncestor_of_mem_children hc).1 h with rfl | h
    · exact hlt
    · exact Nat.lt_trans hlt (ih h)

theorem extent_le_size (hn : n < e.size) : e.extent n ≤ e.size := by
  have := (subtree_nested e.root_lt_size (mem_subtree_root hn)).length_le
  rwa [e.subtree_root_perm.length_eq, List.length_range] at this

theorem mem_subtree_iff_rank (ha : a < e.size) :
    n ∈ e.subtree a ↔ e.rank a ≤ e.rank n ∧ e.rank n < e.rank a + e.extent a := by
  obtain ⟨before, behind, heq⟩ := subtree_nested e.root_lt_size (mem_subtree_root ha)
  rw [← preOrder_eq] at heq
  have hnodup := e.listed_preOrder.nodup
  rw [← heq, List.append_assoc, List.nodup_append] at hnodup
  obtain ⟨-, hrest, hbefore⟩ := hnodup
  obtain ⟨-, -, hbehind⟩ := List.nodup_append.1 hrest
  have hnone : ∀ x ∈ e.subtree a, x ∉ before :=
    fun x hx hxb => hbefore x hxb x (List.mem_append_left _ hx) rfl
  have hplace : ∀ x ∈ e.subtree a, e.rank x = before.length + (e.subtree a).idxOf x := by
    intro x hx
    rw [rank, ← heq, List.append_assoc, List.idxOf_append_of_notMem (hnone x hx),
      List.idxOf_append_of_mem hx]
  have htop : e.rank a = before.length := by
    rw [hplace a (e.self_mem_subtree a), subtree_eq, List.idxOf_cons_self]
    rfl
  rw [htop]
  constructor
  · intro h
    have := List.idxOf_lt_length_of_mem h
    rw [hplace n h, extent]
    omega
  · rintro ⟨hlow, hhigh⟩
    by_contra hout
    by_cases hb : n ∈ before
    · have := List.idxOf_lt_length_of_mem hb
      rw [rank, ← heq, List.append_assoc, List.idxOf_append_of_mem hb] at hlow
      omega
    · rw [rank, ← heq, List.append_assoc, List.idxOf_append_of_notMem hb,
        List.idxOf_append_of_notMem hout] at hhigh
      rw [extent] at hhigh
      omega

end Expression

namespace Layout

open Expression

variable {e : Expression} {n a : Nat}

theorem position_eq (hn : n < e.size) : (ofExpression e).position[n]? = some (e.rank n) := by
  have hfold : (ofExpression e).position =
      Tables.setAll e.preOrder.zipIdx (Array.replicate e.size 0) := rfl
  rw [hfold]
  refine Tables.getElem?_setAll ?_ ?_ (by rw [Array.size_replicate]; exact hn)
  · rw [List.zipIdx_map_fst]
    exact e.listed_preOrder.nodup
  · rw [List.mk_mem_zipIdx_iff_getElem?]
    exact getElem?_rank hn

theorem extent_eq (hn : n < e.size) : (ofExpression e).extent[n]?.getD 1 = e.extent n := by
  have htable := Tables.value_foldl
    (fun table n =>
      table.setIfInBounds n (total ((e.children n).map fun child => table[child]?.getD 1) + 1))
    (fun (table : Array Nat) n => table[n]?.getD 1) (fun table => table.size = e.size) e.children
    (fun _ below => total below + 1) e.postOrder
    (by intro table n h; rw [Array.size_setIfInBounds, h])
    (by
      intro table h n hn
      rw [Array.getElem?_setIfInBounds_self_of_lt (by rw [h]; exact mem_postOrder.1 hn)]
      rfl)
    (by intro table n m hm; rw [Array.getElem?_setIfInBounds_ne (Ne.symm hm)])
    e.notMem_children_self e.postOrder_nodup e.postOrder_pairwise
    (t := Array.replicate e.size 1) (by rw [Array.size_replicate])
  change ∀ n ∈ e.postOrder, (ofExpression e).extent[n]?.getD 1 =
    total ((e.children n).map fun c => (ofExpression e).extent[c]?.getD 1) + 1 at htable
  induction n, hn using induction_up with
  | parent n hn ih =>
    rw [htable n (mem_postOrder.2 hn), Expression.extent_eq, List.map_congr_left ih]

theorem encloses_iff (ha : a < e.size) (hn : n < e.size) :
    (ofExpression e).encloses a n = true ↔ e.isAncestor a n = true := by
  have hextent : (ofExpression e).extent[a]?.getD 1 = e.extent a := extent_eq ha
  rw [encloses, position_eq ha, position_eq hn, hextent]
  simp only [Option.getD_some, Bool.and_eq_true, decide_eq_true_eq]
  have hmem := mem_subtree_iff_rank (n := n) ha
  rw [mem_subtree_iff ha] at hmem
  constructor
  · rintro ⟨hlow, hhigh⟩
    rcases (hmem.2 ⟨Nat.le_of_lt hlow, hhigh⟩).2 with rfl | h
    · omega
    · exact h
  · intro h
    obtain ⟨hlow, hhigh⟩ := hmem.1 ⟨hn, .inr h⟩
    refine ⟨Nat.lt_of_le_of_ne hlow ?_, hhigh⟩
    intro heq
    have hsame : a = n := by
      have := getElem?_rank ha
      rw [heq, getElem?_rank hn] at this
      exact (Option.some.inj this).symm
    have := (depth_lt_of_isAncestor hn h).2
    rw [hsame] at this
    omega

theorem foldl_depth_children {cs : List Nat} (hn : n ∉ cs) (table : Array Nat) :
    cs.foldl (fun table child => table.setIfInBounds child (table[n]?.getD 0 + 1)) table =
      Tables.setAll (cs.map (·, table[n]?.getD 0 + 1)) table := by
  induction cs generalizing table with
  | nil => rfl
  | cons c cs ih =>
    rw [List.mem_cons, not_or] at hn
    rw [List.foldl_cons, ih hn.2, Array.getElem?_setIfInBounds_ne (Ne.symm hn.1)]
    rfl

/-- Handing depths down in pre-order gives every child of a node that was met its depth. -/
theorem depthTable_fold {done order : List Nat} (horder : e.preOrder = done ++ order)
    {table : Array Nat} (hsize : table.size = e.size)
    (htable : ∀ m, (m = e.root ∨ ∃ p ∈ done, m ∈ e.children p) → table[m]?.getD 0 = e.depth m) :
    ∀ m, (m = e.root ∨ ∃ p ∈ e.preOrder, m ∈ e.children p) →
      (order.foldl (fun table n =>
        (e.children n).foldl
          (fun table child => table.setIfInBounds child (table[n]?.getD 0 + 1)) table)
        table)[m]?.getD 0 = e.depth m := by
  induction order generalizing done table with
  | nil =>
    rw [List.append_nil] at horder
    rw [horder]
    exact htable
  | cons n order ih =>
    rw [List.foldl_cons, foldl_depth_children (e.notMem_children_self n)]
    have hdone : e.preOrder = (done ++ [n]) ++ order := by
      rw [horder, List.append_assoc]
      rfl
    refine ih hdone (by rw [Tables.size_setAll, hsize]) ?_
    have hmem : n ∈ e.preOrder := by
      rw [horder]
      exact List.mem_append_right _ List.mem_cons_self
    have hn : table[n]?.getD 0 = e.depth n := by
      refine htable n ?_
      by_cases hroot : n = e.root
      · exact .inl hroot
      · obtain ⟨p, hp⟩ := exists_parent (e.listed_preOrder.lt_size n hmem) hroot
        refine .inr ⟨p, ?_, hp⟩
        have hpm := mem_preOrder (lt_size_of_mem_children hp).2
        rw [horder] at hpm
        rcases List.mem_append.1 hpm with hpm | hpm
        · exact hpm
        · -- a parent behind its child would contradict the order of the walk
          exfalso
          rcases List.mem_cons.1 hpm with rfl | hpm
          · exact e.notMem_children_self _ hp
          · have hpair := e.preOrder_pairwise
            rw [horder, List.pairwise_append, List.pairwise_cons] at hpair
            exact hpair.2.1.1 p hpm hp
    intro m hm
    by_cases hchild : m ∈ e.children n
    · have hset : (Tables.setAll ((e.children n).map (·, table[n]?.getD 0 + 1)) table)[m]? =
          some (table[n]?.getD 0 + 1) := by
        refine Tables.getElem?_setAll ?_ (List.mem_map_of_mem hchild)
          (by rw [hsize]; exact (lt_size_of_mem_children hchild).1)
        rw [List.map_map]
        simpa [Function.comp_def] using e.children_nodup n
      rw [hset, hn, depth_of_mem_children hchild]
      rfl
    · rw [Tables.getElem?_setAll_of_notMem (by
        rw [List.map_map]
        simpa [Function.comp_def] using hchild)]
      refine htable m ?_
      rcases hm with rfl | ⟨p, hp, hmp⟩
      · exact .inl rfl
      · rcases List.mem_append.1 hp with hp | hp
        · exact .inr ⟨p, hp, hmp⟩
        · rw [List.mem_singleton.1 hp] at hmp
          exact absurd hmp hchild

theorem depth_eq (hn : n < e.size) : (ofExpression e).depth n = e.depth n := by
  have hblank : (Array.replicate e.size 0).size = e.size := Array.size_replicate
  refine depthTable_fold (List.nil_append e.preOrder).symm hblank ?_ n ?_
  · rintro m (rfl | ⟨p, hp, -⟩)
    · rw [depth_root, Array.getElem?_replicate]
      split <;> rfl
    · simp at hp
  · by_cases hroot : n = e.root
    · exact .inl hroot
    · obtain ⟨p, hp⟩ := exists_parent hn hroot
      exact .inr ⟨p, mem_preOrder (lt_size_of_mem_children hp).2, hp⟩

end Layout
end Concordance
