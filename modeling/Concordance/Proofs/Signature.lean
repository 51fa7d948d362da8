import Concordance.Proofs.Layout
import Concordance.Signature.Table

/-!
# Signature tables

The table of an expression solves the recursive equation of signatures: the
signature of a node is the digest of its kind and of the signatures of its
children. Two expressions are free of collisions if equal signatures, one from
either expression, come from equal kinds and from the same signatures of
children. Nodes with equal signatures then have subtrees of equal size.
-/
namespace Concordance

namespace SignatureTable

open Expression

variable {e : Expression} {n : Nat}

theorem sizes_enter {t : SignatureTable}
    (h : t.signatures.size = e.size ∧ t.sizes.size = e.size) :
    (enter e t n).signatures.size = e.size ∧ (enter e t n).sizes.size = e.size := by
  unfold enter
  dsimp only
  split
  · exact h
  · exact ⟨Array.size_setIfInBounds.trans h.1, Array.size_setIfInBounds.trans h.2⟩

theorem get?_enter_self {t : SignatureTable} {k : Kind} (hk : e.kind? n = some k)
    (ht : t.signatures.size = e.size) :
    (enter e t n).get? n = some
      (Signature.ofNode k ((e.children n).map fun c => (t.get? c).getD Digest.zero)) := by
  unfold enter
  rw [hk]
  exact Array.getElem?_setIfInBounds_self_of_lt (by rw [ht]; exact lt_size_of_kind? hk)

theorem get?_enter_of_ne {t : SignatureTable} {m : Nat} (h : m ≠ n) :
    (enter e t n).get? m = t.get? m := by
  unfold enter
  dsimp only
  split
  · rfl
  · exact Array.getElem?_setIfInBounds_ne (Ne.symm h)

theorem subtreeSize_enter_self {t : SignatureTable} {k : Kind} (hk : e.kind? n = some k)
    (ht : t.sizes.size = e.size) :
    (enter e t n).subtreeSize n = total ((e.children n).map t.subtreeSize) + 1 := by
  unfold enter
  rw [hk]
  unfold subtreeSize
  dsimp only
  rw [Array.getElem?_setIfInBounds_self_of_lt (by rw [ht]; exact lt_size_of_kind? hk)]
  rfl

theorem subtreeSize_enter_of_ne {t : SignatureTable} {m : Nat} (h : m ≠ n) :
    (enter e t n).subtreeSize m = t.subtreeSize m := by
  unfold enter
  dsimp only
  split
  · rfl
  · unfold subtreeSize
    dsimp only
    rw [Array.getElem?_setIfInBounds_ne (Ne.symm h)]

theorem sizes_blank (e : Expression) :
    (blank e).signatures.size = e.size ∧ (blank e).sizes.size = e.size :=
  ⟨Array.size_replicate, Array.size_replicate⟩

theorem sizes_ofExpression (e : Expression) :
    (ofExpression e).signatures.size = e.size ∧ (ofExpression e).sizes.size = e.size := by
  refine List.foldlRecOn
    (motive := fun t : SignatureTable => t.signatures.size = e.size ∧ t.sizes.size = e.size)
    e.postOrder (enter e) (sizes_blank e) ?_
  intro t ht n _
  exact sizes_enter ht

theorem size_ofExpression (e : Expression) : (ofExpression e).size = e.size :=
  (sizes_ofExpression e).1

/-- The signature of a node is the digest of its kind and of its children's signatures. -/
theorem get?_ofExpression {k : Kind} (hk : e.kind? n = some k) :
    (ofExpression e).get? n = some (Signature.ofNode k
      ((e.children n).map fun c => ((ofExpression e).get? c).getD Digest.zero)) := by
  have htable := Tables.value_foldl (enter e) get?
    (fun t => t.signatures.size = e.size ∧ t.sizes.size = e.size) e.children
    (fun n below => (e.kind? n).map fun k =>
      Signature.ofNode k (below.map fun s => s.getD Digest.zero)) e.postOrder
    (fun t n h => sizes_enter h)
    (by
      intro t ht n hn
      obtain ⟨k, hk⟩ := exists_kind? (mem_postOrder.1 hn)
      rw [get?_enter_self hk ht.1, hk, List.map_map]
      rfl)
    (fun t n m h => get?_enter_of_ne h) e.notMem_children_self e.postOrder_nodup
    e.postOrder_pairwise (sizes_blank e) n (mem_postOrder.2 (lt_size_of_kind? hk))
  rw [hk, List.map_map] at htable
  exact htable

/-- The size in the table is the number of nodes in the subtree. -/
theorem subtreeSize_ofExpression (hn : n < e.size) :
    (ofExpression e).subtreeSize n = e.extent n := by
  have htable := Tables.value_foldl (enter e) subtreeSize
    (fun t => t.signatures.size = e.size ∧ t.sizes.size = e.size) e.children
    (fun _ below => total below + 1) e.postOrder
    (fun t n h => sizes_enter h)
    (by
      intro t ht n hn
      obtain ⟨k, hk⟩ := exists_kind? (mem_postOrder.1 hn)
      exact subtreeSize_enter_self hk ht.2)
    (fun t n m h => subtreeSize_enter_of_ne h) e.notMem_children_self e.postOrder_nodup
    e.postOrder_pairwise (sizes_blank e)
  change ∀ n ∈ e.postOrder, (ofExpression e).subtreeSize n =
    total ((e.children n).map (ofExpression e).subtreeSize) + 1 at htable
  induction n, hn using induction_up with
  | parent n hn ih =>
    rw [htable n (mem_postOrder.2 hn), Expression.extent_eq, List.map_congr_left ih]

theorem root_ofExpression (e : Expression) : (ofExpression e).root = e.root := by
  refine List.foldlRecOn (motive := fun t : SignatureTable => t.root = e.root)
    e.postOrder (enter e) rfl ?_
  intro t ht n _
  unfold enter
  dsimp only
  split <;> exact ht

theorem exists_get? (hn : n < e.size) : ∃ s, (ofExpression e).get? n = some s := by
  obtain ⟨k, hk⟩ := exists_kind? hn
  exact ⟨_, get?_ofExpression hk⟩

theorem lt_size_of_get? {s : Signature} (h : (ofExpression e).get? n = some s) : n < e.size := by
  obtain ⟨hlt, -⟩ := Array.getElem?_eq_some_iff.1 h
  rwa [(sizes_ofExpression e).1] at hlt

theorem get?_root (e : Expression) :
    (ofExpression e).get? e.root = some (ofExpression e).rootSignature := by
  obtain ⟨s, hs⟩ := exists_get? e.root_lt_size
  rw [rootSignature, root_ofExpression, hs]
  rfl

theorem mem_nodesWith {s : Signature} :
    n ∈ (ofExpression e).nodesWith s ↔ (ofExpression e).get? n = some s := by
  rw [nodesWith, List.mem_filter, List.mem_range, size_ofExpression, decide_eq_true_eq]
  exact and_iff_right_of_imp lt_size_of_get?

theorem nodesWith_nodup (t : SignatureTable) (s : Signature) : (t.nodesWith s).Nodup :=
  List.nodup_range.filter _

/-- Signatures of the children of a node, in stored order. -/
def childSignatures (t : SignatureTable) (e : Expression) (n : Nat) : List (Option Signature) :=
  (e.children n).map t.get?

end SignatureTable

/-- Nodes of two expressions with equal signatures have equal kinds and children with the same
signatures, each as often. -/
def CollisionFree (reference comparison : Expression) : Prop :=
  ∀ r < reference.size, ∀ c < comparison.size,
    (SignatureTable.ofExpression reference).get? r =
        (SignatureTable.ofExpression comparison).get? c →
      reference.kind? r = comparison.kind? c ∧
        ((SignatureTable.ofExpression reference).childSignatures reference r).Perm
          ((SignatureTable.ofExpression comparison).childSignatures comparison c)

instance (reference comparison : Expression) : Decidable (CollisionFree reference comparison) :=
  inferInstanceAs (Decidable (∀ r < reference.size, ∀ c < comparison.size, _ → _))

/-- Lists with the same images under two functions have the same images under all functions that
those two determine. -/
theorem map_perm_map {α β γ δ : Type} {f : α → γ} {g : β → γ} {u : α → δ} {v : β → δ}
    {xs : List α} {ys : List β} (h : (xs.map f).Perm (ys.map g))
    (hdetermined : ∀ x ∈ xs, ∀ y ∈ ys, f x = g y → u x = v y) : (xs.map u).Perm (ys.map v) := by
  induction xs generalizing ys with
  | nil =>
    rw [List.map_nil, List.nil_perm, List.map_eq_nil_iff] at h
    rw [h]
    exact .refl _
  | cons x xs ih =>
    obtain ⟨y, hy, hxy⟩ := List.mem_map.1 (h.subset List.mem_cons_self)
    have hu : u x = v y := hdetermined x List.mem_cons_self y hy hxy.symm
    obtain ⟨before, behind, rfl⟩ := List.append_of_mem hy
    have hrest : (xs.map f).Perm ((before ++ behind).map g) := by
      have hmiddle : ((before ++ y :: behind).map g).Perm (g y :: (before ++ behind).map g) :=
        List.perm_middle.map g
      rw [List.map_cons, ← hxy] at h
      exact (h.trans hmiddle).cons_inv
    have hmap := ih hrest fun x' hx' y' hy' => hdetermined x' (List.mem_cons_of_mem _ hx') y'
      (List.mem_append.2 ((List.mem_append.1 hy').imp_right (List.mem_cons_of_mem _)))
    rw [List.map_cons, hu]
    exact (hmap.cons _).trans (List.perm_middle.map v).symm

namespace CollisionFree

open Expression

variable {reference comparison : Expression} (h : CollisionFree reference comparison) {r c : Nat}

include h

theorem kind?_eq (hr : r < reference.size)
    (hs : (SignatureTable.ofExpression reference).get? r =
      (SignatureTable.ofExpression comparison).get? c) :
    reference.kind? r = comparison.kind? c := by
  obtain ⟨s, hget⟩ := SignatureTable.exists_get? hr
  exact (h r hr c (SignatureTable.lt_size_of_get? (hs ▸ hget)) hs).1

theorem childSignatures_perm (hr : r < reference.size)
    (hs : (SignatureTable.ofExpression reference).get? r =
      (SignatureTable.ofExpression comparison).get? c) :
    ((SignatureTable.ofExpression reference).childSignatures reference r).Perm
      ((SignatureTable.ofExpression comparison).childSignatures comparison c) := by
  obtain ⟨s, hget⟩ := SignatureTable.exists_get? hr
  exact (h r hr c (SignatureTable.lt_size_of_get? (hs ▸ hget)) hs).2

/-- Without collisions nodes with equal signatures have subtrees of equal size. -/
theorem extent_eq (hr : r < reference.size)
    (hs : (SignatureTable.ofExpression reference).get? r =
      (SignatureTable.ofExpression comparison).get? c) :
    reference.extent r = comparison.extent c := by
  induction r, hr using induction_up generalizing c with
  | parent r hr ih =>
    have hsizes : ((reference.children r).map reference.extent).Perm
        ((comparison.children c).map comparison.extent) :=
      map_perm_map (h.childSignatures_perm hr hs) fun x hx y _ hxy => ih x hx hxy
    rw [Expression.extent_eq, Expression.extent_eq, total_perm hsizes]

end CollisionFree
end Concordance
