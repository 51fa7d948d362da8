import Concordance.Proofs.Merged.Rooted
import Concordance.Proofs.Merged.Sides

/-!
# The walk of a difference

The walk over a merged graph goes on below a pair, unless the pair is of leaves
or of role restrictions, and it ends at every other node. On its way down to a
node of either side it therefore comes either to the node itself or to a node
above it at which it ends. In the other direction, it comes to a node, the root
apart, only from a node below which it goes on, and that node has the first one
as a child on one of the two sides.
-/
namespace Concordance

open Expression Matching

namespace Expression

variable {e e' : Expression} {n n' : Nat}

/-- A node is a leaf or a role restriction: what lies below it belongs to it. -/
def IsTerminal (e : Expression) (n : Nat) : Prop :=
  ∃ k, e.kind? n = some k ∧ (k.isRole || k.isLeaf) = true

theorem isTerminal_iff {k : Kind} (hk : e.kind? n = some k) :
    e.IsTerminal n ↔ (k.isRole || k.isLeaf) = true := by
  constructor
  · rintro ⟨j, hj, h⟩
    rw [hk] at hj
    rwa [Option.some.inj hj]
  · intro h
    exact ⟨k, hk, h⟩

theorem isTerminal_of_kind?_eq (h : e.kind? n = e'.kind? n') (hn : e.IsTerminal n) :
    e'.IsTerminal n' := by
  obtain ⟨k, hk, hterminal⟩ := hn
  exact ⟨k, h ▸ hk, hterminal⟩

/-- A leaf has nothing below it. -/
theorem isLeaf_eq_false_of_isAncestor {k : Kind} {a : Nat} (hn : n < e.size)
    (h : e.isAncestor a n = true) (hk : e.kind? a = some k) : k.isLeaf = false := by
  induction n, hn using induction_down with
  | root =>
    rw [not_isAncestor_root] at h
    simp at h
  | child p c hc ih =>
    rcases (isAncestor_of_mem_children hc).1 h with rfl | habove
    · cases hleaf : k.isLeaf with
      | false => rfl
      | true =>
        rw [children_eq_nil hk hleaf] at hc
        simp at hc
    · exact ih habove

end Expression

namespace Matching.Problem

def tree (p : Problem) (side : Side) : Expression :=
  side.pick p.reference p.comparison

def table (p : Problem) (side : Side) : SignatureTable :=
  side.pick p.referenceTable p.comparisonTable

variable {p : Problem} {side : Side} {n : Nat}

theorem Own.table_eq (hp : p.Own) (side : Side) :
    p.table side = .ofExpression (p.tree side) := by
  cases side with
  | reference => exact hp.referenceTable
  | comparison => exact hp.comparisonTable

theorem Own.exists_get? (hp : p.Own) (side : Side) (hn : n < (p.tree side).size) :
    ∃ s, (p.table side).get? n = some s := by
  rw [hp.table_eq]
  exact SignatureTable.exists_get? hn

theorem Own.mem_nodesWith (hp : p.Own) {s : Signature} :
    n ∈ (p.table side).nodesWith s ↔ (p.table side).get? n = some s := by
  rw [hp.table_eq]
  exact SignatureTable.mem_nodesWith

end Matching.Problem

namespace Difference

open Merged

variable {p : Problem} {m : Mapping} {side : Side} {a b n r c x k : Nat} {q : Quality} {o : Origin}

theorem descends_of_shared {v : MergedNode} (ho : v.origin = .shared r c q) :
    descends v = !(v.kind.isRole || v.kind.isLeaf) := by
  rw [descends, ho]

theorem descends_of_unpaired {v : MergedNode}
    (ho : v.origin = side.pick (.reference n) (.comparison n)) : descends v = false := by
  rw [descends, ho]
  cases side <;> rfl

theorem root_mem_walk {g : Merged} (h : g.root < g.size) : g.root ∈ (walk g).preOrder :=
  (walk g).root_mem_preOrder h

theorem walk_edge_iff {g : Merged} : (walk g).Edge a b ↔
    ∃ v, g.nodes.get? a = some v ∧ descends v = true ∧ b ∈ v.children := by
  unfold Graph.Edge walk
  dsimp only
  cases hv : g.nodes.get? a with
  | none => simp
  | some v => cases hdescends : descends v <;> simp [hdescends]

theorem edge_of_walk_edge {g : Merged} (h : (walk g).Edge a b) : g.graph.Edge a b := by
  obtain ⟨v, hv, -, hb⟩ := walk_edge_iff.1 h
  exact edge_iff.2 ⟨v, hv, hb⟩

theorem mem_walk_of_child {g : Merged} {v : MergedNode} (ha : a ∈ (walk g).preOrder)
    (hv : g.nodes.get? a = some v) (hdescends : descends v = true) (hb : b ∈ v.children)
    (hsize : b < g.size) : b ∈ (walk g).preOrder :=
  (walk g).mem_preOrder_of_edge ha (walk_edge_iff.2 ⟨v, hv, hdescends, hb⟩) hsize

/-- If the walk goes on below a node, it comes to all nodes a step down, through the conjunction
if there is one. -/
theorem mem_walk_of_below {i : Input} (hi : i.Paired) (ha : a ∈ (walk (build i)).preOrder)
    (ho : i.origins[a]? = some o) (hdescends : descends (i.numbered.joinedNode a o) = true)
    (h : i.Below a b) : b ∈ (walk (build i)).preOrder := by
  obtain ⟨o', ho', hb⟩ := h
  rw [ho] at ho'
  obtain rfl := Option.some.inj ho'
  have hsize := lt_size_of_lt (Input.below_lt hi ⟨o, ho, hb⟩).2
  rcases get?_build_of_origin ho with ⟨-, hnode⟩ | ⟨-, s, -, hnode, hconjunction⟩
  · exact mem_walk_of_child ha hnode hdescends hb hsize
  · have hs := mem_walk_of_child ha hnode hdescends (List.mem_singleton_self s)
      (Array.getElem?_eq_some_iff.1 hconjunction).1
    exact mem_walk_of_child hs hconjunction rfl hb hsize

/-- The walk leaves a node with an origin only if it goes on below that node. -/
theorem descends_of_walk_edge {i : Input} (ho : i.origins[a]? = some o)
    (h : (walk (build i)).Edge a b) : descends (i.numbered.joinedNode a o) = true := by
  obtain ⟨v, hv, hdescends, -⟩ := walk_edge_iff.1 h
  obtain ⟨w, hw, horigin, hkind, -⟩ := exists_node_of_origin ho
  obtain rfl : w = v := Option.some.inj (hw.symm.trans hv)
  rw [descends, horigin, hkind] at hdescends
  exact hdescends

/-- The walk comes to a node with an origin, the root apart, by a step down. -/
theorem exists_above_of_mem_walk {i : Input} (hi : i.Paired)
    (hb : b ∈ (walk (build i)).preOrder) (hlt : b < i.origins.length)
    (hroot : b ≠ (build i).root) :
    ∃ a ∈ (walk (build i)).preOrder, ∃ o, i.origins[a]? = some o ∧
      descends (i.numbered.joinedNode a o) = true ∧ i.Below a b := by
  obtain ⟨a, ha, hedge⟩ := (walk (build i)).exists_edge_of_mem_preOrder hb hroot
  rcases edge_cases (edge_of_walk_edge hedge) with hbelow | ⟨-, hle, -⟩ | ⟨hle, -⟩
  · have ho := List.getElem?_eq_getElem (Input.below_lt hi hbelow).1
    exact ⟨a, ha, _, ho, descends_of_walk_edge ho hedge, hbelow⟩
  · omega
  · -- a conjunction, which the walk enters from its owner
    have hrootlt := (List.getElem?_eq_some_iff.1 (getElem?_origins_root hi)).1
    have hne : a ≠ (build i).root := by omega
    obtain ⟨owner, howner, hup⟩ := (walk (build i)).exists_edge_of_mem_preOrder ha hne
    rcases edge_cases (edge_of_walk_edge hup) with habove | ⟨holt, -, -, hall⟩ | ⟨-, z, habove⟩
    · have := (Input.below_lt hi habove).2
      omega
    · have ho := List.getElem?_eq_getElem holt
      exact ⟨owner, howner, _, ho, descends_of_walk_edge ho hup,
        hall b (edge_of_walk_edge hedge)⟩
    · have := (Input.below_lt hi habove).2
      omega

/-- The walk over the merged graph of a mapping comes to a node of a side. -/
def Reached (p : Problem) (m : Mapping) (side : Side) (n : Nat) : Prop :=
  ∃ k ∈ (walk (build (p.input m))).preOrder, (p.input m).Place side n k

/-- The walk goes on below a node of a side: the node is in a pair, and it is not terminal. -/
def Passable (p : Problem) (m : Mapping) (side : Side) (n : Nat) : Prop :=
  (∃ q, m.InPair side q n) ∧ ¬ (p.tree side).IsTerminal n

section Fair

variable (hm : Fair p m)

include hm

theorem kind?_pick (h : m.correspondence? r = some ⟨c, q⟩) (side : Side) :
    (p.tree side).kind? (side.pick r c) = p.reference.kind? r := by
  cases side with
  | reference => rfl
  | comparison => exact (hm.kinds r c (Mapping.comparisonFor?_eq_some_iff.2 ⟨q, h⟩)).symm

theorem kind?_origin (side : Side) (n : Nat) :
    (p.input m).kind? ((p.input m).origin side n) = (p.tree side).kind? n := by
  rcases Input.origin_cases (i := p.input m) hm.valid side n with
    ⟨r, c, q, hrc, rfl, horigin⟩ | ⟨-, horigin⟩
  · rw [horigin, kind?_pick hm hrc]
    rfl
  · rw [horigin]
    cases side <;> rfl

theorem kind_joinedNode {j : Kind} (hj : (p.tree side).kind? n = some j) (k : Nat) :
    ((p.input m).numbered.joinedNode k ((p.input m).origin side n)).kind = j := by
  show ((p.input m).kind? ((p.input m).origin side n)).getD .conjunction = j
  rw [kind?_origin hm, hj]
  rfl

/-- The walk goes on below the node of an origin exactly if the nodes behind it are passable. -/
theorem descends_joinedNode_iff (hn : n < (p.tree side).size) (k : Nat) :
    descends ((p.input m).numbered.joinedNode k ((p.input m).origin side n)) = true ↔
      Passable p m side n := by
  obtain ⟨j, hj⟩ := exists_kind? hn
  rw [Passable, isTerminal_iff hj]
  rcases Input.origin_cases (i := p.input m) hm.valid side n with
    ⟨r, c, q, hrc, hpick, horigin⟩ | ⟨hfree, horigin⟩
  · rw [descends_of_shared horigin, kind_joinedNode hm hj, and_iff_right ⟨q, r, c, hrc, hpick⟩,
      Bool.not_eq_true', Bool.not_eq_true]
  · rw [descends_of_unpaired horigin]
    constructor
    · intro h
      simp at h
    · rintro ⟨⟨q, hq⟩, -⟩
      exact absurd hq (hfree q)

theorem reached_root_reference : Reached p m .reference p.reference.root := by
  have hi : (p.input m).Paired := hm.valid
  exact ⟨_, root_mem_walk (root_lt_size hi), getElem?_origins_root hi⟩

theorem reached_root_comparison
    (hroots : m.comparisonFor? p.reference.root = some p.comparison.root) :
    Reached p m .comparison p.comparison.root := by
  have hi : (p.input m).Paired := hm.valid
  exact ⟨_, root_mem_walk (root_lt_size hi), Input.place_root hi hroots .comparison⟩

theorem reached_of_mem_children (hn : Reached p m side n) (hpass : Passable p m side n)
    (hx : x ∈ (p.tree side).children n) : Reached p m side x := by
  have hi : (p.input m).Paired := hm.valid
  obtain ⟨k, hk, hplace⟩ := hn
  obtain ⟨j, hj⟩ := Input.exists_place (i := p.input m) hi side
    (lt_size_of_mem_children hx).1
  have hdescends := (descends_joinedNode_iff hm (lt_size_of_mem_children hx).2 k).2 hpass
  refine ⟨j, mem_walk_of_below hi hk hplace hdescends ?_, hj⟩
  exact (Input.below_iff_place hi).2 ⟨side, n, x, hx, hplace, hj⟩

/-- On its way down the walk comes to a node, or it ends at a node above. -/
theorem reached_or_stopped (hroot : Reached p m side (p.tree side).root)
    (hn : n < (p.tree side).size) : Reached p m side n ∨
      ∃ a, (p.tree side).isAncestor a n = true ∧ Reached p m side a ∧ ¬ Passable p m side a := by
  induction n, hn using induction_down with
  | root => exact .inl hroot
  | child n x hx ih =>
    rcases ih with hreached | ⟨a, ha, hstop⟩
    · by_cases hpass : Passable p m side n
      · exact .inl (reached_of_mem_children hm hreached hpass hx)
      · exact .inr ⟨n, (isAncestor_of_mem_children hx).2 (.inl rfl), hreached, hpass⟩
    · exact .inr ⟨a, (isAncestor_of_mem_children hx).2 (.inr ha), hstop⟩

/-- The walk comes to a node, the root apart, from a passable node that has it, or its partner, as
a child. -/
theorem exists_passable_above
    (hroots : m.comparisonFor? p.reference.root = some p.comparison.root)
    (hn : Reached p m side n) (hroot : n ≠ (p.tree side).root) :
    ∃ side' a x, x ∈ (p.tree side').children a ∧
      (p.input m).origin side' x = (p.input m).origin side n ∧
      Reached p m side' a ∧ Passable p m side' a := by
  have hi : (p.input m).Paired := hm.valid
  obtain ⟨k, hk, hplace⟩ := hn
  have hroot' : k ≠ (build (p.input m)).root := by
    rintro rfl
    exact hroot (Input.origin_injective hi (hplace.unique (Input.place_root hi hroots side)))
  obtain ⟨j, hj, o, ho, hdescends, hbelow⟩ :=
    exists_above_of_mem_walk hi hk (List.getElem?_eq_some_iff.1 hplace).1 hroot'
  obtain ⟨side', a, x, hx, ha, hxk⟩ := (Input.below_iff_place hi).1 hbelow
  obtain rfl : o = (p.input m).origin side' a := Option.some.inj (ho.symm.trans ha)
  exact ⟨side', a, x, hx, hxk.unique hplace, ⟨j, hj, ha⟩,
    (descends_joinedNode_iff hm (lt_size_of_mem_children hx).2 j).1 hdescends⟩

end Fair
end Difference
end Concordance
