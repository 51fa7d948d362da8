import Concordance.Proofs.Groups
import Mathlib.Logic.Function.Iterate

/-!
# What a signature table holds

A table is filled in one pass over all nodes, from vectors of zeros. What it
holds in the end is found without it as well: the signature of a node from its
subtree alone, by a search that notes the signatures it has found so far; the
size of a subtree by counting the nodes below its top; and the groups of nodes
with equal signatures by one pass that adds every node to the group of its
signature. No zero is left in a table, and no child is left out by the search,
because both come to the children of a node before the node.
-/
namespace Concordance

namespace Graph

variable {g : Graph}

/-- A walk from a given stack does not look at the root. -/
theorem postOrderFrom_rootedAt (g : Graph) (root : Nat) (stack : List Visit)
    (entered order : List Nat) :
    (g.rootedAt root).postOrderFrom stack entered order = g.postOrderFrom stack entered order := by
  fun_induction g.postOrderFrom stack entered order with
  | case1 entered order => rw [postOrderFrom]
  | case2 entered order n rest ih => rw [postOrderFrom, ih]
  | case3 entered order n rest h ih =>
    rw [postOrderFrom, if_pos (show n < (g.rootedAt root).size ∧ n ∉ entered from h)]
    exact ih
  | case4 entered order n rest h ih =>
    rw [postOrderFrom, if_neg (show ¬ (n < (g.rootedAt root).size ∧ n ∉ entered) from h), ih]

end Graph

theorem SignatureTable.get?_eq_none_iff {e : Expression} {n : Nat} :
    (ofExpression e).get? n = none ↔ e.size ≤ n := by
  rw [get?, Array.getElem?_eq_none_iff, (sizes_ofExpression e).1]

namespace Expression

open SignatureTable

variable {e : Expression} {n m : Nat}

theorem postOrder_rootedAt (hn : n < e.size) :
    (e.graph.rootedAt n).postOrder = e.subtreePost n := by
  rw [Graph.postOrder, Graph.postOrderFrom_rootedAt]
  refine (postOrderFrom_subtree hn [] [] [] (by simp)).trans ?_
  rw [Graph.postOrderFrom, List.nil_append]

theorem lookup_memoize_self {k : Kind} (hk : e.kind? n = some k) (memo : Memo) :
    (e.memoize memo n).lookup n = some (Signature.ofNode k
      (((e.children n).map fun c => memo.lookup c).filterMap id)) := by
  rw [memoize, hk, List.filterMap_map]
  exact List.lookup_cons_self

theorem lookup_memoize_of_ne (h : m ≠ n) (memo : Memo) :
    (e.memoize memo n).lookup m = memo.lookup m := by
  rw [memoize]
  split
  · rfl
  · rw [List.lookup_cons, beq_false_of_ne h]

/-- After a pass over a subtree in post-order the signatures found are those of the table. -/
theorem lookup_foldl_memoize (hn : n < e.size) (memo : Memo) (hm : m ∈ e.subtree n) :
    ((e.subtreePost n).foldl e.memoize memo).lookup m = (ofExpression e).get? m := by
  have hperm := subtreePost_perm hn
  have hsize : ∀ a ∈ e.subtree n, a < e.size := fun a ha => ((mem_subtree_iff hn).1 ha).1
  have hequation := Tables.value_foldl e.memoize (fun memo n => memo.lookup n) (fun _ => True)
    e.children (fun n below => (e.kind? n).map fun k => Signature.ofNode k (below.filterMap id))
    (e.subtreePost n) (fun _ _ _ => trivial)
    (by
      intro memo _ a ha
      obtain ⟨k, hk⟩ := exists_kind? (hsize a (hperm.mem_iff.1 ha))
      rw [lookup_memoize_self hk, hk]
      rfl)
    (fun memo a b hb => lookup_memoize_of_ne hb memo) e.notMem_children_self
    (hperm.nodup_iff.2 (subtree_nodup hn)) (subtreePost_pairwise hn) (t := memo) trivial
  have hmsize := hsize m hm
  induction m, hmsize using induction_up with
  | parent m hmsize ih =>
    obtain ⟨k, hk⟩ := exists_kind? hmsize
    rw [hequation m (hperm.mem_iff.2 hm), hk, get?_eq_ofNode hk, Option.map_some]
    have hbelow : ((e.children m).map fun c =>
        ((e.subtreePost n).foldl e.memoize memo).lookup c) = (e.signaturesBelow m).map some := by
      rw [← childSignatures_eq, childSignatures]
      exact List.map_congr_left fun c hc => ih c hc (mem_subtree_of_mem_children hn hm hc)
    rw [hbelow, List.filterMap_map]
    simp

/-- A pass over the subtree of a number finds its signature in the table, and none if the number
names no node. -/
theorem lookup_foldl_memoize_self (e : Expression) (n : Nat) :
    ((e.subtreePost n).foldl e.memoize []).lookup n = (ofExpression e).get? n := by
  by_cases hn : n < e.size
  · exact lookup_foldl_memoize hn [] (e.self_mem_subtree n)
  · have hout := Nat.not_lt.1 hn
    have hmemo : e.memoize [] n = [] := by
      rw [memoize, kind?_eq_none hout]
    rw [get?_eq_none_iff.2 hout, subtreePost_eq, children_of_size_le hout, List.flatMap_nil,
      List.nil_append, List.foldl_cons, hmemo]
    rfl

/-- The signature found in the subtree alone is that of the table. -/
theorem signature?_eq (e : Expression) (n : Nat) : e.signature? n = (ofExpression e).get? n := by
  by_cases hn : n < e.size
  · rw [signature?, postOrder_rootedAt hn, lookup_foldl_memoize_self]
  · have hempty : (e.graph.rootedAt n).postOrder = [] := by
      rw [Graph.postOrder, Graph.postOrderFrom_rootedAt]
      show e.graph.postOrderFrom [.enter n] [] [] = []
      rw [Graph.postOrderFrom, if_neg fun h => hn h.1, Graph.postOrderFrom]
    rw [signature?, hempty, get?_eq_none_iff.2 (Nat.not_lt.1 hn)]
    rfl

/-- One round of a search for signatures that keeps a stack of visits and the signatures it has
found, but no record of what it has entered. -/
def searchRound (e : Expression) : List Graph.Visit × Memo → List Graph.Visit × Memo
  | ([], memo) => ([], memo)
  | (.enter n :: rest, memo) => (Graph.Visit.enterAll (e.children n) (.leave n :: rest), memo)
  | (.leave n :: rest, memo) => (rest, e.memoize memo n)

/-- Rounds that deal with every subtree of a forest by itself deal with the forest. -/
theorem iterate_searchRound_forest (cs : List Nat) {rest : List Graph.Visit} {memo : Memo}
    (heach : ∀ c ∈ cs, ∀ rest memo, e.searchRound^[2 * e.extent c] (.enter c :: rest, memo) =
      (rest, (e.subtreePost c).foldl e.memoize memo)) :
    e.searchRound^[2 * total (cs.map e.extent)] (Graph.Visit.enterAll cs rest, memo) =
      (rest, (cs.flatMap e.subtreePost).foldl e.memoize memo) := by
  induction cs generalizing memo with
  | nil => rfl
  | cons c cs ih =>
    have hstack : Graph.Visit.enterAll (c :: cs) rest =
        .enter c :: Graph.Visit.enterAll cs rest := rfl
    have hcount : 2 * total ((c :: cs).map e.extent) =
        2 * total (cs.map e.extent) + 2 * e.extent c := by
      rw [List.map_cons, total_cons]
      omega
    rw [hcount, Function.iterate_add_apply, hstack, heach c List.mem_cons_self,
      ih fun d hd => heach d (List.mem_cons_of_mem _ hd), List.flatMap_cons, List.foldl_append]

/-- The search enters and leaves every node of a subtree once, and finds what a pass over it in
post-order finds. -/
theorem iterate_searchRound (n : Nat) (rest : List Graph.Visit) (memo : Memo) :
    e.searchRound^[2 * e.extent n] (.enter n :: rest, memo) =
      (rest, (e.subtreePost n).foldl e.memoize memo) := by
  induction n using induction_children generalizing rest memo with
  | parent n ih =>
    have hcount : 2 * e.extent n = 1 + 2 * total ((e.children n).map e.extent) + 1 := by
      rw [extent_eq]
      omega
    have henter : e.searchRound (.enter n :: rest, memo) =
        (Graph.Visit.enterAll (e.children n) (.leave n :: rest), memo) := rfl
    rw [hcount, Function.iterate_succ_apply, henter, Function.iterate_add_apply,
      iterate_searchRound_forest (e.children n) ih, subtreePost_eq, List.foldl_append]
    rfl

/-- The size of a subtree in a table is the number of nodes at or below its top. -/
theorem subtreeSize_eq_length (e : Expression) (n : Nat) : (ofExpression e).subtreeSize n =
    ((List.range e.size).filter fun m => m = n ∨ e.isAncestor n m).length := by
  by_cases hn : n < e.size
  · rw [subtreeSize_ofExpression hn, extent]
    apply List.Perm.length_eq
    rw [List.perm_ext_iff_of_nodup (subtree_nodup hn) (List.nodup_range.filter _)]
    intro m
    rw [mem_subtree_iff hn, List.mem_filter, List.mem_range, decide_eq_true_eq, InSubtree]
  · have hnone : ((List.range e.size).filter fun m => m = n ∨ e.isAncestor n m) = [] := by
      rw [List.filter_eq_nil_iff]
      intro m hm
      rw [decide_eq_true_eq]
      rintro (rfl | habove)
      · exact hn (List.mem_range.1 hm)
      · exact hn (depth_lt_of_isAncestor (List.mem_range.1 hm) habove).1
    have hout : (ofExpression e).sizes[n]? = none := by
      apply Array.getElem?_eq_none
      rw [(sizes_ofExpression e).2]
      exact Nat.not_lt.1 hn
    rw [subtreeSize, hout, hnone]
    rfl

end Expression

/-- The table of an expression holds what is found without it. The signature of any node is the one
that the search in its subtree finds, whether by a walk in post-order or by a stack that keeps no
record of entered nodes; it is the digest of the kind of the node and of the signatures of its
children, all of which are in the table. The size of a subtree is the number of nodes at or below
its top. The groups of nodes are those that one pass over the signatures builds, and they divide the
nodes. -/
theorem SignatureTable.found_without_table (e : Expression) :
    (∀ n, (ofExpression e).get? n = e.signature? n ∧
      ((ofExpression e).get? n = none ↔ e.size ≤ n) ∧
      (∃ memo, e.searchRound^[2 * e.extent n] ([.enter n], []) = ([], memo) ∧
        memo.lookup n = e.signature? n) ∧
      (ofExpression e).get? n =
        (e.kind? n).map (fun k => Signature.ofNode k (e.signaturesBelow n)) ∧
      (e.children n).map (ofExpression e).get? = (e.signaturesBelow n).map some ∧
      (ofExpression e).subtreeSize n =
        ((List.range e.size).filter fun m => m = n ∨ e.isAncestor n m).length) ∧
    (ofExpression e).occurrences = grouped (ofExpression e).signatures.toList.zipIdx ∧
    DividesNodes e (ofExpression e).occurrences := by
  refine ⟨fun n => ⟨(e.signature?_eq n).symm, get?_eq_none_iff, ?_, ?_, e.childSignatures_eq n,
    e.subtreeSize_eq_length n⟩, occurrences_eq_grouped _, dividesNodes_occurrences e⟩
  · exact ⟨_, Expression.iterate_searchRound n [] [],
      (e.lookup_foldl_memoize_self n).trans (e.signature?_eq n).symm⟩
  · by_cases hn : n < e.size
    · obtain ⟨k, hk⟩ := Expression.exists_kind? hn
      rw [Expression.get?_eq_ofNode hk, hk, Option.map_some]
    · have hout := Nat.not_lt.1 hn
      rw [get?_eq_none_iff.2 hout, Expression.kind?_eq_none hout, Option.map_none]

end Concordance
