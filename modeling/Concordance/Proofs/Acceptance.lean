import Concordance.Proofs.Tree
import Mathlib.Logic.Relation

/-!
# Which lists of nodes are accepted

Validation accepts exactly the lists of nodes that form one tree below one root.
That nothing else is accepted follows from what each pass says when it comes to
its end. Conversely the passes meet no violation in a tree: the first one sees a
single root, the second one never finds a parent noted already, because a node is
listed only once, and the last one misses no node, because a walk from the root
lists with every node its children. A node that is its own child would be the
only node to list it, and no way from the root could lead to it.
-/
namespace Concordance

/-- The children of all nodes of a list one after another. -/
def childReferences (nodes : Arena Node) : List Nat :=
  nodes.toList.flatMap (·.children)

/-- One node of a list has another one as a child. -/
def HasChild (nodes : Arena Node) (p c : Nat) : Prop :=
  ∃ node, nodes.get? p = some node ∧ c ∈ node.children

/-- A list of nodes forms a single tree below a root. -/
structure IsTree (nodes : Arena Node) (root : Nat) : Prop where
  root_kind : ∃ node, nodes.get? root = some node ∧ node.kind = .root
  root_only : ∀ n node, nodes.get? n = some node → node.kind = .root → n = root
  in_range : ∀ n node, nodes.get? n = some node → ∀ c ∈ node.children, c < nodes.size
  admitted : ∀ n node, nodes.get? n = some node →
    node.kind.arity.admits node.children.length = true
  root_unlisted : root ∉ childReferences nodes
  listed_once : ∀ n < nodes.size, n ≠ root → (childReferences nodes).count n = 1
  reached : ∀ n < nodes.size, Relation.ReflTransGen (HasChild nodes) root n

/-- An expression has the nodes of a list, and its root and parents are those of the tree that they
form. -/
structure Expression.Depicts (e : Expression) (nodes : Arena Node) : Prop where
  size : e.size = nodes.size
  kind : ∀ n, e.kind? n = (nodes.get? n).map (·.kind)
  children : ∀ n, e.children n = ((nodes.get? n).map (·.children)).getD []
  root : IsTree nodes e.root
  parent : ∀ p c, e.parent? c = some p ↔ c ∈ e.children p

namespace Validation

variable {nodes : Arena Node} {root size n p q c : Nat} {parents : Parents}

theorem hasChild_iff : HasChild nodes p c ↔ (p, c) ∈ references nodes :=
  mem_references.symm

theorem map_snd_references (nodes : Arena Node) :
    (references nodes).map Prod.snd = childReferences nodes := by
  rw [references, List.map_flatMap, childReferences, ← Arena.map_snd_entries, List.flatMap_map]
  simp [List.map_map, Function.comp_def]

theorem edge_graph_iff : (graph nodes root).Edge p c ↔ HasChild nodes p c := by
  show c ∈ ((nodes.get? p).map (·.children)).getD [] ↔ _
  rw [HasChild]
  cases nodes.get? p <;> simp

theorem mem_childReferences : c ∈ childReferences nodes ↔ ∃ p, HasChild nodes p c := by
  simp [← map_snd_references, hasChild_iff]

theorem checkNode_of_nodeOk {seen : Option Nat} {node : Node} (h : NodeOk size node)
    (hroot : node.kind = .root → seen = none) : ∃ next, checkNode size seen n node = .ok next ∧
      (next = seen ∨ (node.kind = .root ∧ next = some n)) := by
  have hrange : node.children.find? (fun child => decide (size ≤ child)) = none := by
    rw [List.find?_eq_none]
    intro child hchild
    simpa using h.1 child hchild
  unfold checkNode
  rw [hrange]
  dsimp only
  rw [if_pos h.2]
  by_cases hkind : node.kind = .root
  · rw [if_pos hkind, hroot hkind]
    exact ⟨some n, rfl, .inr ⟨hkind, rfl⟩⟩
  · rw [if_neg hkind]
    exact ⟨seen, rfl, .inl rfl⟩

/-- The first pass comes to its end if only one entry can be a root and it was not seen before. -/
theorem foldlM_checkNode_of_nodeOk {entries : List (Nat × Node)} {seen : Option Nat}
    (hok : ∀ entry ∈ entries, NodeOk size entry.2)
    (hroot : ∀ entry ∈ entries, entry.2.kind = .root → entry.1 = root)
    (hnodup : (entries.map Prod.fst).Nodup)
    (hseen : root ∈ entries.map Prod.fst → seen = none) :
    ∃ last, entries.foldlM (fun seen entry => checkNode size seen entry.1 entry.2) seen =
      .ok last := by
  induction entries generalizing seen with
  | nil => exact ⟨seen, rfl⟩
  | cons entry entries ih =>
    obtain ⟨hnew, hnodup⟩ := List.nodup_cons.1 hnodup
    obtain ⟨next, hstep, hnext⟩ := checkNode_of_nodeOk (n := entry.1)
      (hok entry List.mem_cons_self) fun hkind =>
        hseen (by rw [List.map_cons, hroot entry List.mem_cons_self hkind]; exact .head _)
    obtain ⟨last, hlast⟩ := ih
      (fun other hother => hok other (List.mem_cons_of_mem _ hother))
      (fun other hother => hroot other (List.mem_cons_of_mem _ hother)) hnodup (by
        intro hmem
        rcases hnext with rfl | ⟨hkind, -⟩
        · exact hseen (List.mem_cons_of_mem _ hmem)
        · rw [hroot entry List.mem_cons_self hkind] at hnew
          exact absurd hmem hnew)
    refine ⟨last, ?_⟩
    rw [List.foldlM_cons, hstep]
    exact hlast

theorem adopt_of_free {reference : Nat × Nat} (hroot : reference.2 ≠ root)
    (hself : reference.2 ≠ reference.1) (hfree : parents[reference.2]?.getD none = none) :
    adopt root parents reference =
      .ok (parents.setIfInBounds reference.2 (some reference.1)) := by
  unfold adopt
  dsimp only
  rw [if_neg hroot, if_neg hself]
  split
  · rename_i first hfirst
    simp [hfirst] at hfree
  · rfl

/-- The second pass comes to its end if every child is listed once, by another node. -/
theorem foldlM_adopt_of_nodup {references : List (Nat × Nat)} {first : Parents}
    (hroot : ∀ r ∈ references, r.2 ≠ root) (hself : ∀ r ∈ references, r.2 ≠ r.1)
    (hnodup : (references.map Prod.snd).Nodup)
    (hfree : ∀ r ∈ references, first[r.2]?.getD none = none) :
    ∃ last, references.foldlM (adopt root) first = .ok last := by
  induction references generalizing first with
  | nil => exact ⟨first, rfl⟩
  | cons r references ih =>
    obtain ⟨hnew, hnodup⟩ := List.nodup_cons.1 hnodup
    have hnext : ∀ other ∈ references,
        (first.setIfInBounds r.2 (some r.1))[other.2]?.getD none = none := by
      intro other hother
      have hne : r.2 ≠ other.2 := by
        intro heq
        exact hnew (heq ▸ List.mem_map_of_mem hother)
      rw [Array.getElem?_setIfInBounds_ne hne]
      exact hfree other (List.mem_cons_of_mem _ hother)
    obtain ⟨last, hlast⟩ := ih
      (fun other hother => hroot other (List.mem_cons_of_mem _ hother))
      (fun other hother => hself other (List.mem_cons_of_mem _ hother)) hnodup hnext
    refine ⟨last, ?_⟩
    rw [List.foldlM_cons, adopt_of_free (hroot r List.mem_cons_self)
      (hself r List.mem_cons_self) (hfree r List.mem_cons_self)]
    exact hlast

end Validation

namespace IsTree

open Validation

variable {nodes : Arena Node} {root n p q c : Nat} {parents : Parents} (h : IsTree nodes root)

include h

theorem nodeOk {node : Node} (hn : nodes.get? n = some node) : NodeOk nodes.size node :=
  ⟨h.in_range n node hn, h.admitted n node hn⟩

theorem lt_size_of_hasChild (hc : HasChild nodes p c) : c < nodes.size := by
  obtain ⟨node, hnode, hmem⟩ := hc
  exact h.in_range p node hnode c hmem

theorem ne_root_of_hasChild (hc : HasChild nodes p c) : c ≠ root := by
  rintro rfl
  exact h.root_unlisted (mem_childReferences.2 ⟨p, hc⟩)

theorem nodup_childReferences : (childReferences nodes).Nodup := by
  rw [List.nodup_iff_count_le_one]
  intro c
  by_cases hc : c ∈ childReferences nodes
  · obtain ⟨p, hp⟩ := mem_childReferences.1 hc
    exact Nat.le_of_eq (h.listed_once c (h.lt_size_of_hasChild hp) (h.ne_root_of_hasChild hp))
  · rw [List.count_eq_zero_of_not_mem hc]
    exact Nat.zero_le 1

theorem hasChild_unique (hp : HasChild nodes p c) (hq : HasChild nodes q c) : p = q := by
  have hnodup := h.nodup_childReferences
  rw [← map_snd_references] at hnodup
  have heq := List.inj_on_of_nodup_map hnodup (hasChild_iff.1 hp) (hasChild_iff.1 hq) rfl
  exact (Prod.mk.inj heq).1

/-- No way from the root leads to a node that lists itself. -/
theorem not_hasChild_self (n : Nat) : ¬ HasChild nodes n n := by
  intro hself
  have haway : ∀ m, Relation.ReflTransGen (HasChild nodes) root m → m ≠ n := by
    intro m hm
    induction hm with
    | refl => exact (h.ne_root_of_hasChild hself).symm
    | tail _ hstep ih =>
      rintro rfl
      exact ih (h.hasChild_unique hstep hself)
  exact haway n (h.reached n (h.lt_size_of_hasChild hself)) rfl

theorem findRoot_eq : findRoot nodes = .ok root := by
  have hentries : ∀ entry ∈ nodes.entries, nodes.get? entry.1 = some entry.2 :=
    fun entry hentry => mem_entries.1 hentry
  obtain ⟨last, hfold⟩ := foldlM_checkNode_of_nodeOk
    (fun entry hentry => h.nodeOk (hentries entry hentry))
    (fun entry hentry => h.root_only entry.1 entry.2 (hentries entry hentry))
    (by rw [Arena.map_fst_entries]; exact List.nodup_range) fun _ => rfl
  obtain ⟨node, hnode, hkind⟩ := h.root_kind
  obtain rfl : last = some root :=
    (foldlM_checkNode hfold).2.2.1 (root, node) (mem_entries.2 hnode) hkind
  unfold findRoot
  rw [hfold]

theorem exists_findParents : ∃ parents, findParents nodes root = .ok parents := by
  refine foldlM_adopt_of_nodup ?_ ?_ ?_ ?_
  · intro r hr
    exact h.ne_root_of_hasChild (hasChild_iff.2 hr)
  · rintro ⟨p, c⟩ hr heq
    obtain rfl : c = p := heq
    exact h.not_hasChild_self c (hasChild_iff.2 hr)
  · rw [map_snd_references]
    exact h.nodup_childReferences
  · intro r _
    rw [Array.getElem?_replicate]
    split <;> rfl

theorem mem_preOrder (hn : n < nodes.size) : n ∈ (graph nodes root).preOrder := by
  obtain ⟨node, hnode, -⟩ := h.root_kind
  have hreached := h.reached n hn
  clear hn
  induction hreached with
  | refl => exact Graph.root_mem_preOrder (lt_size_of_get? hnode)
  | tail _ hstep ih =>
    exact Graph.mem_preOrder_of_edge ih (edge_graph_iff.2 hstep) (h.lt_size_of_hasChild hstep)

theorem checkConnected_eq (hparents : findParents nodes root = .ok parents) :
    checkConnected nodes root parents = .ok () := by
  obtain ⟨-, -, hparent⟩ := findParents_eq_ok (fun _ _ => h.nodeOk) hparents
  have horphans : nodes.indices.find?
      (fun n => n != root && (parents[n]?.getD none).isNone) = none := by
    rw [List.find?_eq_none]
    intro n hn
    rw [Bool.and_eq_true, bne_iff_ne, not_and]
    intro hroot
    have hlisted : n ∈ childReferences nodes := by
      rw [← List.count_pos_iff, h.listed_once n (List.mem_range.1 hn) hroot]
      exact Nat.one_pos
    obtain ⟨p, hp⟩ := mem_childReferences.1 hlisted
    simp [(hparent p n).2 (hasChild_iff.1 hp)]
  have hmissed : nodes.indices.find?
      (fun n => !(graph nodes root).preOrder.contains n) = none := by
    rw [List.find?_eq_none]
    intro n hn
    simpa using h.mem_preOrder (List.mem_range.1 hn)
  unfold checkConnected
  rw [horphans]
  dsimp only
  rw [hmissed]

theorem exists_validate : ∃ parents, validate nodes = .ok (root, parents) := by
  obtain ⟨parents, hparents⟩ := h.exists_findParents
  refine ⟨parents, ?_⟩
  simp [validate, h.findRoot_eq, hparents, h.checkConnected_eq hparents, bind, Except.bind, pure,
    Except.pure]

end IsTree

namespace Expression

variable {nodes : Arena Node}

theorem hasChild_iff (e : Expression) {p c : Nat} : HasChild e.nodes p c ↔ c ∈ e.children p := by
  rw [Validation.hasChild_iff, mem_children_iff]

theorem isTree (e : Expression) : IsTree e.nodes e.root where
  root_kind := by
    simpa [kind?_eq] using (kind?_eq_root_iff (e := e)).2 rfl
  root_only n node hn hkind := by
    apply (kind?_eq_root_iff (e := e)).1
    rw [kind?_eq, hn, Option.map_some, hkind]
  in_range _ _ hn := (nodeOk hn).1
  admitted _ _ hn := (nodeOk hn).2
  root_unlisted hmem := by
    obtain ⟨p, hp⟩ := Validation.mem_childReferences.1 hmem
    exact e.root_notMem_children p (e.hasChild_iff.1 hp)
  listed_once n hn hroot := by
    have hnodup := (Validation.findParents_eq_ok (fun _ _ => nodeOk) e.findParents_eq).2.1
    rw [Validation.map_snd_references] at hnodup
    obtain ⟨p, hp⟩ := exists_parent hn hroot
    exact List.count_eq_one_of_mem hnodup
      (Validation.mem_childReferences.2 ⟨p, e.hasChild_iff.2 hp⟩)
  reached n hn := by
    induction n, hn using induction_down with
    | root => exact .refl
    | child p c hc ih => exact ih.tail (e.hasChild_iff.2 hc)

theorem nodes_of_ofNodes {e : Expression} (h : ofNodes nodes = .ok e) : e.nodes = nodes := by
  unfold ofNodes at h
  split at h
  · cases h
  · obtain rfl := Except.ok.inj h
    rfl

theorem exists_ofNodes {root : Nat} {parents : Validation.Parents}
    (h : Validation.validate nodes = .ok (root, parents)) : ∃ e, ofNodes nodes = .ok e := by
  unfold ofNodes
  split
  · rename_i hfailed
    rw [h] at hfailed
    cases hfailed
  · exact ⟨_, rfl⟩

/-- A list of nodes is accepted if and only if it forms a single tree below a root. Then the
expression has the kinds and children of the list, the root of that tree, and as the parent of a node
the one node that lists it. -/
theorem ofNodes_accepts_trees (nodes : Arena Node) :
    ((∃ e, ofNodes nodes = .ok e) ↔ ∃ root, IsTree nodes root) ∧
      ∀ e, ofNodes nodes = .ok e → e.Depicts nodes := by
  have hdepicts : ∀ e, ofNodes nodes = .ok e → e.Depicts nodes := by
    intro e he
    obtain rfl := nodes_of_ofNodes he
    exact ⟨rfl, e.kind?_eq, e.children_eq, e.isTree, fun _ _ => parent?_eq_some_iff⟩
  refine ⟨⟨?_, ?_⟩, hdepicts⟩
  · rintro ⟨e, he⟩
    exact ⟨e.root, (hdepicts e he).root⟩
  · rintro ⟨root, htree⟩
    obtain ⟨parents, hvalidate⟩ := htree.exists_validate
    exact exists_ofNodes hvalidate

end Expression
end Concordance
