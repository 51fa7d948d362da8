import Concordance.Proofs.Traversal
import Concordance.Proofs.Validation
import Mathlib.Data.List.Nodup

/-!
# Expressions as trees

Validation makes an expression a tree: the parents it found are those of the
child lists, every node but the root has one, and the root reaches every node.
So each node has a depth, and statements about all nodes can be proved downwards
from the root or upwards from the leaves.
-/
namespace Concordance.Expression

variable {e : Expression} {n p c a : Nat} {node : Node}

theorem findRoot_eq (e : Expression) : Validation.findRoot e.nodes = .ok e.root :=
  (Validation.validate_eq_ok e.valid).1

theorem findParents_eq (e : Expression) : Validation.findParents e.nodes e.root = .ok e.parents :=
  (Validation.validate_eq_ok e.valid).2.1

theorem checkConnected_eq (e : Expression) :
    Validation.checkConnected e.nodes e.root e.parents = .ok () :=
  (Validation.validate_eq_ok e.valid).2.2

theorem kind?_eq (e : Expression) (n : Nat) : e.kind? n = (e.nodes.get? n).map (·.kind) := rfl

theorem children_eq (e : Expression) (n : Nat) :
    e.children n = ((e.nodes.get? n).map (·.children)).getD [] := rfl

theorem mem_children_iff : c ∈ e.children p ↔ (p, c) ∈ Validation.references e.nodes := by
  rw [Validation.mem_references, children_eq]
  cases e.nodes.get? p <;> simp

theorem nodeOk (h : e.nodes.get? n = some node) : Validation.NodeOk e.size node :=
  (Validation.findRoot_eq_ok e.findRoot_eq).1 n node h

theorem root_lt_size (e : Expression) : e.root < e.size :=
  (Validation.findRoot_eq_ok e.findRoot_eq).2.2

theorem exists_kind? (h : n < e.size) : ∃ k, e.kind? n = some k := by
  obtain ⟨node, hnode⟩ := Validation.exists_get? h
  exact ⟨node.kind, by rw [kind?_eq, hnode]; rfl⟩

theorem lt_size_of_kind? {k : Kind} (h : e.kind? n = some k) : n < e.size := by
  rw [kind?_eq, Option.map_eq_some_iff] at h
  obtain ⟨node, hnode, -⟩ := h
  exact Validation.lt_size_of_get? hnode

theorem kind?_eq_none (h : e.size ≤ n) : e.kind? n = none := by
  cases hk : e.kind? n with
  | none => rfl
  | some k => exact absurd (lt_size_of_kind? hk) (Nat.not_lt.2 h)

theorem kind?_eq_root_iff : e.kind? n = some .root ↔ n = e.root := by
  obtain ⟨-, hroot, hlt⟩ := Validation.findRoot_eq_ok e.findRoot_eq
  rw [kind?_eq]
  constructor
  · intro h
    obtain ⟨node, hnode, hkind⟩ := Option.map_eq_some_iff.1 h
    exact (hroot n node hnode).1 hkind
  · rintro rfl
    obtain ⟨node, hnode⟩ := Validation.exists_get? hlt
    rw [hnode, Option.map_some, (hroot _ node hnode).2 rfl]

/-- Every node has as many children as its kind admits. -/
theorem admits_children {k : Kind} (h : e.kind? n = some k) :
    k.arity.admits (e.children n).length = true := by
  rw [kind?_eq, Option.map_eq_some_iff] at h
  obtain ⟨node, hnode, rfl⟩ := h
  rw [children_eq, hnode]
  exact (nodeOk hnode).2

theorem children_ne_nil {k : Kind} (h : e.kind? n = some k) (hk : k.isLeaf = false) :
    e.children n ≠ [] := by
  intro hnil
  have := admits_children h
  rw [hnil] at this
  cases k <;> simp [Kind.arity, Arity.admits, Kind.isLeaf] at this hk

theorem children_eq_nil {k : Kind} (h : e.kind? n = some k) (hk : k.isLeaf = true) :
    e.children n = [] := by
  have := admits_children h
  cases k <;> simp_all [Kind.arity, Arity.admits, Kind.isLeaf]

theorem exists_only_child {k : Kind} (h : e.kind? n = some k) (hset : k.isSet = true) :
    ∃ c, e.children n = [c] := by
  have hadmits := admits_children h
  rw [← List.length_eq_one_iff]
  cases k <;> simp_all [Kind.isSet, Kind.arity, Arity.admits]

theorem lt_size_of_mem_children (h : c ∈ e.children p) : c < e.size ∧ p < e.size := by
  obtain ⟨node, hnode, hc⟩ := Validation.mem_references.1 (mem_children_iff.1 h)
  exact ⟨(nodeOk hnode).1 c hc, Validation.lt_size_of_get? hnode⟩

theorem children_of_size_le (h : e.size ≤ n) : e.children n = [] :=
  List.eq_nil_iff_forall_not_mem.2 fun _ hc => Nat.not_lt.2 h (lt_size_of_mem_children hc).2

theorem parent?_eq_some_iff : e.parent? c = some p ↔ c ∈ e.children p := by
  rw [mem_children_iff]
  exact (Validation.findParents_eq_ok (fun _ _ => nodeOk) e.findParents_eq).2.2 p c

theorem parent_unique {q : Nat} (hp : c ∈ e.children p) (hq : c ∈ e.children q) : p = q :=
  Option.some.inj ((parent?_eq_some_iff.2 hp).symm.trans (parent?_eq_some_iff.2 hq))

theorem root_notMem_children (e : Expression) (p : Nat) : e.root ∉ e.children p := by
  intro h
  exact (Validation.findParents_eq_ok (fun _ _ => nodeOk) e.findParents_eq).1 p _
    (mem_children_iff.1 h) rfl

theorem parent?_root (e : Expression) : e.parent? e.root = none := by
  cases h : e.parent? e.root with
  | none => rfl
  | some p => exact absurd (parent?_eq_some_iff.1 h) (e.root_notMem_children p)

/-- Every node but the root is a child. -/
theorem exists_parent (h : n < e.size) (hroot : n ≠ e.root) : ∃ p, n ∈ e.children p := by
  obtain ⟨p, hp⟩ := Option.ne_none_iff_exists'.1
    ((Validation.checkConnected_eq_ok e.checkConnected_eq).1 n h hroot)
  exact ⟨p, parent?_eq_some_iff.1 hp⟩

theorem children_nodup (e : Expression) (n : Nat) : (e.children n).Nodup := by
  have hnodup := (Validation.findParents_eq_ok (fun _ _ => nodeOk) e.findParents_eq).2.1
  rw [children_eq]
  cases hnode : e.nodes.get? n with
  | none => simp
  | some node =>
    rw [Validation.references, List.map_flatMap] at hnodup
    have := (List.nodup_flatMap.1 hnodup).1 (n, node) (Validation.mem_entries.2 hnode)
    rw [List.map_map] at this
    simpa [Function.comp_def] using this

theorem mem_preOrder (h : n < e.size) : n ∈ e.preOrder :=
  (Validation.checkConnected_eq_ok e.checkConnected_eq).2 n h

theorem listed_preOrder (e : Expression) : e.graph.Listed e.root e.preOrder :=
  e.graph.listed_preOrder

theorem preOrder_perm (e : Expression) : e.preOrder.Perm (List.range e.size) :=
  Graph.preOrder_perm_range fun _ => mem_preOrder

/-- Place of a node in pre-order. It bounds the number of steps from the node up to the root, because
the rank of a parent is smaller than that of its children. -/
def rank (e : Expression) (n : Nat) : Nat :=
  e.preOrder.idxOf n

theorem rank_lt_size (h : n < e.size) : e.rank n < e.size := by
  have := List.idxOf_lt_length_of_mem (mem_preOrder h)
  rwa [e.preOrder_perm.length_eq, List.length_range] at this

theorem getElem?_rank (h : n < e.size) : e.preOrder[e.rank n]? = some n := by
  have hlt := List.idxOf_lt_length_of_mem (mem_preOrder h)
  rw [rank, List.getElem?_eq_getElem hlt, List.getElem_idxOf hlt]

theorem rank_lt_of_mem_children (h : c ∈ e.children p) : e.rank p < e.rank c := by
  have hlisted := e.listed_preOrder
  have hc := getElem?_rank (lt_size_of_mem_children h).1
  rcases hlisted.parentsFirst (e.rank c) c hc with rfl | ⟨j, q, hj, hq, hedge⟩
  · exact absurd h (e.root_notMem_children p)
  · obtain rfl : q = p := parent_unique hedge h
    obtain ⟨hlt, rfl⟩ := List.getElem?_eq_some_iff.1 hq
    rw [rank, hlisted.nodup.idxOf_getElem]
    exact hj

/-- What holds of the root and passes from parents to children holds of all nodes. -/
@[elab_as_elim]
theorem induction_down {motive : (n : Nat) → n < e.size → Prop}
    (root : motive e.root e.root_lt_size)
    (child : ∀ p c (h : c ∈ e.children p), motive p (lt_size_of_mem_children h).2 →
      motive c (lt_size_of_mem_children h).1) (n : Nat) (h : n < e.size) : motive n h := by
  revert h
  induction hr : e.rank n using Nat.strongRecOn generalizing n with
  | ind r ih =>
    intro hn
    by_cases hroot : n = e.root
    · subst hroot
      exact root
    · obtain ⟨p, hp⟩ := exists_parent hn hroot
      exact child p n hp (ih _ (hr ▸ rank_lt_of_mem_children hp) p rfl _)

/-- What passes from all children of a node to the node holds of all nodes. -/
@[elab_as_elim]
theorem induction_up {motive : (n : Nat) → n < e.size → Prop}
    (parent : ∀ n (h : n < e.size),
      (∀ c (hc : c ∈ e.children n), motive c (lt_size_of_mem_children hc).1) → motive n h)
    (n : Nat) (h : n < e.size) : motive n h := by
  revert h
  induction hr : e.size - e.rank n using Nat.strongRecOn generalizing n with
  | ind r ih =>
    intro hn
    refine parent n hn fun c hc => ?_
    have hlt := rank_lt_of_mem_children hc
    have hcs := (lt_size_of_mem_children hc).1
    have := rank_lt_size hcs
    exact ih (e.size - e.rank c) (by omega) c rfl hcs

/-- What passes from all children of a number to the number holds of all numbers: those that name no
node have no children. -/
@[elab_as_elim]
theorem induction_children {motive : Nat → Prop}
    (parent : ∀ n, (∀ c ∈ e.children n, motive c) → motive n) (n : Nat) : motive n := by
  by_cases hn : n < e.size
  · induction n, hn using induction_up with
    | parent n hn ih => exact parent n ih
  · exact parent n fun c hc => absurd (lt_size_of_mem_children hc).2 hn

theorem climb_of_mem_children (h : c ∈ e.children p) (k : Nat) :
    e.climb (k + 1) c = p :: e.climb k p := by
  rw [climb, parent?_eq_some_iff.2 h]

theorem climb_root (e : Expression) (k : Nat) : e.climb k e.root = [] := by
  cases k with
  | zero => rfl
  | succ k => rw [climb, e.parent?_root]

theorem length_climb_le (e : Expression) (k n : Nat) : (e.climb k n).length ≤ k := by
  induction k generalizing n with
  | zero => exact Nat.le_refl _
  | succ k ih =>
    rw [climb]
    split
    · simp
    · rw [List.length_cons]
      exact Nat.succ_le_succ (ih _)

theorem climb_eq (hn : n < e.size) {k : Nat} (hk : e.rank n ≤ k) :
    e.climb k n = e.climb (e.rank n) n := by
  induction n, hn using induction_down generalizing k with
  | root => rw [climb_root, climb_root]
  | child p c hc ih =>
    have hlt := rank_lt_of_mem_children hc
    obtain ⟨k, rfl⟩ : ∃ j, k = j + 1 := ⟨k - 1, by omega⟩
    obtain ⟨r, hr⟩ : ∃ j, e.rank c = j + 1 := ⟨e.rank c - 1, by omega⟩
    rw [hr, climb_of_mem_children hc, climb_of_mem_children hc, ih (by omega : e.rank p ≤ k),
      ih (by omega : e.rank p ≤ r)]

@[simp] theorem ancestors_root (e : Expression) : e.ancestors e.root = [] :=
  e.climb_root _

theorem ancestors_of_mem_children (h : c ∈ e.children p) :
    e.ancestors c = p :: e.ancestors p := by
  obtain ⟨hc, hp⟩ := lt_size_of_mem_children h
  have hlt := rank_lt_of_mem_children h
  have hsize := rank_lt_size hc
  obtain ⟨s, hs⟩ : ∃ j, e.size = j + 1 := ⟨e.size - 1, by omega⟩
  rw [ancestors, ancestors, hs, climb_of_mem_children h, climb_eq hp (by omega : e.rank p ≤ s),
    climb_eq hp (by omega : e.rank p ≤ s + 1)]

@[simp] theorem depth_root (e : Expression) : e.depth e.root = 0 := by
  rw [depth, ancestors_root, List.length_nil]

theorem depth_of_mem_children (h : c ∈ e.children p) : e.depth c = e.depth p + 1 := by
  rw [depth, ancestors_of_mem_children h, List.length_cons, depth]

theorem depth_eq_zero_iff (h : n < e.size) : e.depth n = 0 ↔ n = e.root := by
  constructor
  · intro hdepth
    by_contra hroot
    obtain ⟨p, hp⟩ := exists_parent h hroot
    rw [depth_of_mem_children hp] at hdepth
    omega
  · rintro rfl
    exact e.depth_root

/-- The children of the root are the nodes right below it. -/
theorem mem_children_root_iff (h : n < e.size) : n ∈ e.children e.root ↔ e.depth n = 1 := by
  constructor
  · intro hn
    rw [depth_of_mem_children hn, depth_root]
  · intro hdepth
    have hroot : n ≠ e.root := fun heq => by
      rw [(depth_eq_zero_iff h).2 heq] at hdepth
      omega
    obtain ⟨p, hp⟩ := exists_parent h hroot
    rw [depth_of_mem_children hp] at hdepth
    have hzero : e.depth p = 0 := by omega
    rwa [(depth_eq_zero_iff (lt_size_of_mem_children hp).2).1 hzero] at hp

theorem depth_lt_size (h : n < e.size) : e.depth n < e.size := by
  have hsize := rank_lt_size h
  rw [depth, ancestors, climb_eq h (Nat.le_of_lt hsize)]
  exact Nat.lt_of_le_of_lt (e.length_climb_le _ _) hsize

theorem notMem_children_self (e : Expression) (n : Nat) : n ∉ e.children n := by
  intro h
  have := depth_of_mem_children h
  omega

/-- One node is another one or lies below it. -/
def InSubtree (e : Expression) (top n : Nat) : Prop :=
  n = top ∨ e.isAncestor top n = true

theorem isAncestor_iff : e.isAncestor a n = true ↔ a ∈ e.ancestors n := by
  rw [isAncestor, List.contains_iff_mem]

theorem isAncestor_of_mem_children (h : c ∈ e.children p) :
    e.isAncestor a c = true ↔ e.InSubtree a p := by
  rw [isAncestor_iff, ancestors_of_mem_children h, List.mem_cons, InSubtree, isAncestor_iff,
    eq_comm]

theorem not_isAncestor_root (e : Expression) (a : Nat) : e.isAncestor a e.root = false := by
  rw [isAncestor, ancestors_root]
  rfl

/-- What holds of the top of a subtree and passes from parents to children holds below the top. -/
theorem induction_below {P : Nat → Prop} (htop : P a)
    (hchild : ∀ p c, c ∈ e.children p → P p → P c) (hn : n < e.size) (h : e.InSubtree a n) :
    P n := by
  induction n, hn using induction_down with
  | root =>
    rcases h with heq | habove
    · rw [heq]
      exact htop
    · rw [not_isAncestor_root] at habove
      simp at habove
  | child p c hc ih =>
    rcases h with rfl | habove
    · exact htop
    · apply hchild p c hc
      apply ih
      exact (isAncestor_of_mem_children hc).1 habove

theorem depth_lt_of_isAncestor (hn : n < e.size) (h : e.isAncestor a n = true) :
    a < e.size ∧ e.depth a < e.depth n := by
  induction n, hn using induction_down with
  | root => rw [not_isAncestor_root] at h; simp at h
  | child p c hc ih =>
    rw [depth_of_mem_children hc]
    rcases (isAncestor_of_mem_children hc).1 h with rfl | habove
    · exact ⟨(lt_size_of_mem_children hc).2, by omega⟩
    · have := ih habove
      exact ⟨this.1, by omega⟩

end Concordance.Expression
