import Concordance.Proofs.Merged.Origins
import Concordance.Proofs.Traversal
import Mathlib.Data.List.MinMax
import Mathlib.Logic.Relation
import Mathlib.Order.Nat

/-!
# Structure of merged graphs

Before conjunctions are put in, one merged node is below another if a child of
its reference node or of its comparison node stands behind it. A conjunction
stands between an overfull node and all nodes below it. So every edge of the
merged graph belongs to a step down, and a measure that decreases with every
step down excludes cycles.
-/
namespace Concordance.Merged

open Expression

variable {i : Input} {a b r c s x y k : Nat} {o : Origin}

theorem mem_indicesOf {table : Array (Option Nat)} {nodes : List Nat} :
    k ∈ indicesOf table nodes ↔ ∃ n ∈ nodes, table[n]?.getD none = some k :=
  List.mem_filterMap

theorem mem_union {xs ys : List Nat} {z : Nat} : z ∈ union xs ys ↔ z ∈ xs ∨ z ∈ ys := by
  induction ys generalizing xs with
  | nil => simp [union]
  | cons y ys ih =>
    rw [union, List.foldl_cons]
    refine ih.trans ?_
    rw [List.mem_cons]
    split
    · rename_i hy
      constructor
      · exact fun h => h.imp_right .inr
      · rintro (h | rfl | h)
        · exact .inl h
        · exact .inl hy
        · exact .inr h
    · rw [List.mem_append, List.mem_singleton, or_assoc]

namespace Input

/-- One merged node is below another before any conjunction is put in. -/
def Below (i : Input) (a b : Nat) : Prop :=
  ∃ o, i.origins[a]? = some o ∧ b ∈ i.numbered.joinedChildren a o

variable (hi : i.Paired)

include hi

theorem mem_joinedChildren (ho : i.origins[a]? = some o) :
    b ∈ i.numbered.joinedChildren a o ↔
      (∃ r, o.reference? = some r ∧ ∃ x ∈ i.reference.children r,
        i.referenceIndex[x]?.getD none = some b) ∨
      ∃ c, o.comparison? = some c ∧ ∃ y ∈ i.comparison.children c,
        i.comparisonIndex[y]?.getD none = some b := by
  have hreference : ∀ r, o.reference? = some r → i.referenceIndex[r]?.getD none = some a := by
    intro r hr
    obtain ⟨hsize, rfl⟩ := eq_referenceOrigin hi (List.mem_of_getElem? ho) hr
    exact (referenceIndex_eq_some_iff hi hsize).2 ho
  have hcomparison : ∀ c, o.comparison? = some c → i.comparisonIndex[c]?.getD none = some a := by
    intro c hc
    obtain ⟨hsize, rfl⟩ := eq_comparisonOrigin hi (List.mem_of_getElem? ho) hc
    exact (comparisonIndex_eq_some_iff hi hsize).2 ho
  unfold Numbered.joinedChildren Input.numbered
  cases hr : o.reference? with
  | none =>
    cases hc : o.comparison? with
    | none => simp
    | some c => simp [hcomparison c hc, mem_union, mem_indicesOf]
  | some r =>
    cases hc : o.comparison? with
    | none => simp [hreference r hr, mem_indicesOf]
    | some c => simp [hreference r hr, hcomparison c hc, mem_union, mem_indicesOf]

/-- A step down goes to a child on the reference side or to one on the comparison side. -/
theorem below_iff : i.Below a b ↔
    (∃ r, ∃ x ∈ i.reference.children r, i.origins[a]? = some (i.referenceOrigin r) ∧
      i.origins[b]? = some (i.referenceOrigin x)) ∨
    ∃ c, ∃ y ∈ i.comparison.children c, i.origins[a]? = some (i.comparisonOrigin c) ∧
      i.origins[b]? = some (i.comparisonOrigin y) := by
  constructor
  · rintro ⟨o, ho, hb⟩
    rcases (mem_joinedChildren hi ho).1 hb with ⟨r, hr, x, hx, hindex⟩ | ⟨c, hc, y, hy, hindex⟩
    · obtain ⟨-, rfl⟩ := eq_referenceOrigin hi (List.mem_of_getElem? ho) hr
      have hxsize := (lt_size_of_mem_children hx).1
      exact .inl ⟨r, x, hx, ho, (referenceIndex_eq_some_iff hi hxsize).1 hindex⟩
    · obtain ⟨-, rfl⟩ := eq_comparisonOrigin hi (List.mem_of_getElem? ho) hc
      have hysize := (lt_size_of_mem_children hy).1
      exact .inr ⟨c, y, hy, ho, (comparisonIndex_eq_some_iff hi hysize).1 hindex⟩
  · rintro (⟨r, x, hx, ha, hb⟩ | ⟨c, y, hy, ha, hb⟩)
    · exact ⟨_, ha, (mem_joinedChildren hi ha).2 (.inl ⟨r, i.reference?_referenceOrigin r, x, hx,
        (referenceIndex_eq_some_iff hi (lt_size_of_mem_children hx).1).2 hb⟩)⟩
    · exact ⟨_, ha, (mem_joinedChildren hi ha).2 (.inr ⟨c, comparison?_comparisonOrigin hi c, y, hy,
        (comparisonIndex_eq_some_iff hi (lt_size_of_mem_children hy).1).2 hb⟩)⟩

theorem below_lt (h : i.Below a b) : a < i.origins.length ∧ b < i.origins.length := by
  rcases (below_iff hi).1 h with ⟨r, x, -, ha, hb⟩ | ⟨c, y, -, ha, hb⟩ <;>
    exact ⟨(List.getElem?_eq_some_iff.1 ha).1, (List.getElem?_eq_some_iff.1 hb).1⟩

end Input

theorem length_conjoin (next : Nat) (ns : List MergedNode) :
    (conjoin next ns).1.length = ns.length := by
  induction ns generalizing next with
  | nil => rfl
  | cons n ns ih =>
    rw [conjoin]
    split
    · rw [List.length_cons, List.length_cons, ih]
    · rw [List.length_cons, List.length_cons, ih]

/-- A node stays as it is, or it gets a conjunction over its children. -/
theorem conjoin_owner (next : Nat) {ns : List MergedNode} {n : MergedNode}
    (h : ns[a]? = some n) :
    (isOverfull n = false ∧ (conjoin next ns).1[a]? = some n) ∨
      (isOverfull n = true ∧ ∃ j, (conjoin next ns).1[a]? = some { n with children := [next + j] } ∧
        (conjoin next ns).2[j]? = some (conjunctionOf (next + j) n)) := by
  induction ns generalizing next a with
  | nil => simp at h
  | cons m ns ih =>
    rw [conjoin]
    cases a with
    | zero =>
      obtain rfl : m = n := by simpa using h
      split
      · rename_i hfull
        exact .inr ⟨hfull, 0, rfl, rfl⟩
      · rename_i hfull
        exact .inl ⟨by simpa using hfull, rfl⟩
    | succ a =>
      rw [List.getElem?_cons_succ] at h
      split
      · refine (ih (next + 1) h).imp_right fun ⟨hfull, j, howner, hconjunction⟩ => ?_
        have hj : next + 1 + j = next + (j + 1) := by omega
        rw [hj] at howner hconjunction
        exact ⟨hfull, j + 1, howner, hconjunction⟩
      · exact ih next h

/-- Every conjunction that is put in has an owner. -/
theorem conjoin_conjunction {next j : Nat} {ns : List MergedNode} {d : MergedNode}
    (h : (conjoin next ns).2[j]? = some d) :
    ∃ (a : Nat) (n : MergedNode), ns[a]? = some n ∧ isOverfull n = true ∧
      (conjoin next ns).1[a]? = some { n with children := [next + j] } ∧
      d = conjunctionOf (next + j) n := by
  induction ns generalizing next j with
  | nil => simp [conjoin] at h
  | cons m ns ih =>
    rw [conjoin] at h ⊢
    split at h
    · rename_i hfull
      rw [if_pos hfull]
      cases j with
      | zero =>
        obtain rfl : conjunctionOf next m = d := by simpa using h
        exact ⟨0, m, rfl, hfull, rfl, rfl⟩
      | succ j =>
        rw [List.getElem?_cons_succ] at h
        obtain ⟨a, n, hn, hn', howner, rfl⟩ := ih h
        have hj : next + 1 + j = next + (j + 1) := by omega
        rw [hj] at howner ⊢
        exact ⟨a + 1, n, hn, hn', howner, rfl⟩
    · rename_i hfull
      rw [if_neg hfull]
      obtain ⟨a, n, hn, hn', howner, rfl⟩ := ih h
      exact ⟨a + 1, n, hn, hn', howner, rfl⟩

theorem getElem?_joinedNodes (i : Input) (a : Nat) :
    i.numbered.joinedNodes[a]? = i.origins[a]?.map (i.numbered.joinedNode a) := by
  rw [Numbered.joinedNodes, List.getElem?_map, List.getElem?_zipIdx]
  cases h : i.origins[a]? <;> simp [Input.numbered, h]

theorem length_joinedNodes (i : Input) : i.numbered.joinedNodes.length = i.origins.length := by
  rw [Numbered.joinedNodes, List.length_map, List.length_zipIdx]
  rfl

theorem get?_build (i : Input) (a : Nat) :
    (build i).nodes.get? a = ((conjoin i.origins.length i.numbered.joinedNodes).1 ++
      (conjoin i.origins.length i.numbered.joinedNodes).2)[a]? := by
  rw [Arena.get?_eq, build, length_joinedNodes]
  rfl

theorem get?_build_of_lt (ha : a < i.origins.length) :
    (build i).nodes.get? a = (conjoin i.origins.length i.numbered.joinedNodes).1[a]? := by
  rw [get?_build, List.getElem?_append_left (by rwa [length_conjoin, length_joinedNodes])]

theorem get?_build_add (i : Input) (j : Nat) :
    (build i).nodes.get? (i.origins.length + j) =
      (conjoin i.origins.length i.numbered.joinedNodes).2[j]? := by
  rw [get?_build, List.getElem?_append_right (by rw [length_conjoin, length_joinedNodes]; omega),
    length_conjoin, length_joinedNodes, Nat.add_sub_cancel_left]

theorem get?_build_of_origin (ho : i.origins[a]? = some o) :
    (isOverfull (i.numbered.joinedNode a o) = false ∧
        (build i).nodes.get? a = some (i.numbered.joinedNode a o)) ∨
      (isOverfull (i.numbered.joinedNode a o) = true ∧ ∃ s, i.origins.length ≤ s ∧
        (build i).nodes.get? a = some { i.numbered.joinedNode a o with children := [s] } ∧
        (build i).nodes.get? s = some (conjunctionOf s (i.numbered.joinedNode a o))) := by
  have hjoined : i.numbered.joinedNodes[a]? = some (i.numbered.joinedNode a o) := by
    rw [getElem?_joinedNodes, ho]
    rfl
  rw [get?_build_of_lt (List.getElem?_eq_some_iff.1 ho).1]
  refine (conjoin_owner i.origins.length hjoined).imp_right ?_
  rintro ⟨hfull, j, howner, hconjunction⟩
  exact ⟨hfull, i.origins.length + j, by omega, howner, by rw [get?_build_add, hconjunction]⟩

/-- Below the conjunctions every node has its origin, with the kind and the signatures of it. -/
theorem exists_node_of_origin (ho : i.origins[a]? = some o) :
    ∃ n, (build i).nodes.get? a = some n ∧ n.origin = o ∧
      n.kind = (i.numbered.joinedNode a o).kind ∧
      n.referenceSignature = o.reference?.bind i.referenceTable.get? ∧
      n.comparisonSignature = o.comparison?.bind i.comparisonTable.get? := by
  rcases get?_build_of_origin ho with ⟨-, hnode⟩ | ⟨-, s, -, hnode, -⟩ <;>
    exact ⟨_, hnode, rfl, rfl, rfl, rfl⟩

/-- The nodes behind all origins are conjunctions over the nodes below their owners. -/
theorem get?_build_of_le {d : MergedNode} (hs : i.origins.length ≤ s)
    (hd : (build i).nodes.get? s = some d) :
    ∃ a o, i.origins[a]? = some o ∧ isOverfull (i.numbered.joinedNode a o) = true ∧
      (build i).nodes.get? a = some { i.numbered.joinedNode a o with children := [s] } ∧
      d = conjunctionOf s (i.numbered.joinedNode a o) := by
  obtain ⟨j, rfl⟩ := Nat.exists_eq_add_of_le hs
  rw [get?_build_add] at hd
  obtain ⟨a, n, hn, hfull, howner, rfl⟩ := conjoin_conjunction hd
  rw [getElem?_joinedNodes] at hn
  obtain ⟨o, ho, rfl⟩ := Option.map_eq_some_iff.1 hn
  refine ⟨a, o, ho, hfull, ?_, rfl⟩
  rw [get?_build_of_lt (List.getElem?_eq_some_iff.1 ho).1, howner]

theorem edge_iff {m : Merged} :
    m.graph.Edge a b ↔ ∃ n, m.nodes.get? a = some n ∧ b ∈ n.children := by
  show b ∈ ((m.nodes.get? a).map (·.children)).getD [] ↔ _
  cases h : m.nodes.get? a <;> simp

theorem reflTransGen_of_below (h : i.Below a b) :
    Relation.ReflTransGen (build i).graph.Edge a b := by
  obtain ⟨o, ho, hb⟩ := h
  rcases get?_build_of_origin ho with ⟨-, hnode⟩ | ⟨-, s, -, hnode, hconjunction⟩
  · exact .single (edge_iff.2 ⟨_, hnode, hb⟩)
  · have hdown : (build i).graph.Edge a s := edge_iff.2 ⟨_, hnode, List.mem_singleton_self s⟩
    exact .tail (.single hdown) (edge_iff.2 ⟨_, hconjunction, hb⟩)

/-- An edge is a step down, leads to a conjunction from its owner, or leads on from there. -/
theorem edge_cases (h : (build i).graph.Edge a b) :
    i.Below a b ∨
      (a < i.origins.length ∧ i.origins.length ≤ b ∧ (∃ z, (build i).graph.Edge b z) ∧
        ∀ z, (build i).graph.Edge b z → i.Below a z) ∨
      (i.origins.length ≤ a ∧ ∃ owner, i.Below owner b) := by
  obtain ⟨n, hn, hb⟩ := edge_iff.1 h
  by_cases ha : a < i.origins.length
  · have ho := List.getElem?_eq_getElem ha
    rcases get?_build_of_origin ho with ⟨-, hnode⟩ | ⟨hfull, s, hs, hnode, hconjunction⟩
    · rw [hn] at hnode
      rw [Option.some.inj hnode] at hb
      exact .inl ⟨_, ho, hb⟩
    · rw [hn] at hnode
      rw [Option.some.inj hnode] at hb
      obtain rfl : b = s := List.mem_singleton.1 hb
      have hchildren : ∀ z, (build i).graph.Edge b z → i.Below a z := by
        intro z hz
        obtain ⟨d, hd, hz⟩ := edge_iff.1 hz
        rw [hconjunction] at hd
        rw [← Option.some.inj hd] at hz
        exact ⟨_, ho, hz⟩
      refine .inr (.inl ⟨ha, hs, ?_, hchildren⟩)
      rw [isOverfull, Bool.and_eq_true, decide_eq_true_eq] at hfull
      obtain ⟨z, hz⟩ := List.exists_mem_of_length_pos (Nat.lt_trans Nat.zero_lt_one hfull.2)
      exact ⟨z, edge_iff.2 ⟨_, hconjunction, hz⟩⟩
  · obtain ⟨owner, o, ho, -, -, rfl⟩ := get?_build_of_le (Nat.not_lt.1 ha) hn
    exact .inr (.inr ⟨Nat.not_lt.1 ha, owner, o, ho, hb⟩)

/-- Every conjunction has an owner above it. -/
theorem exists_owner (hs : i.origins.length ≤ s) (hsize : s < (build i).size) :
    ∃ a < i.origins.length, (build i).graph.Edge a s := by
  obtain ⟨d, hd⟩ : ∃ d, (build i).nodes.get? s = some d :=
    ⟨_, Array.getElem?_eq_getElem hsize⟩
  obtain ⟨a, o, ho, -, howner, -⟩ := get?_build_of_le hs hd
  exact ⟨a, (List.getElem?_eq_some_iff.1 ho).1,
    edge_iff.2 ⟨_, howner, List.mem_singleton_self s⟩⟩

theorem lt_size_of_lt (ha : a < i.origins.length) : a < (build i).size := by
  have ho := List.getElem?_eq_getElem ha
  rcases get?_build_of_origin ho with ⟨-, hnode⟩ | ⟨-, s, -, hnode, -⟩ <;>
    exact (Array.getElem?_eq_some_iff.1 hnode).1

theorem lt_size_of_edge (hi : i.Paired) (h : (build i).graph.Edge a b) : b < (build i).size := by
  rcases edge_cases h with hbelow | ⟨-, -, ⟨z, hz⟩, -⟩ | ⟨-, owner, hbelow⟩
  · exact lt_size_of_lt (Input.below_lt hi hbelow).2
  · obtain ⟨d, hd, -⟩ := edge_iff.1 hz
    exact (Array.getElem?_eq_some_iff.1 hd).1
  · exact lt_size_of_lt (Input.below_lt hi hbelow).2

/-- A measure that decreases along all edges excludes cycles. -/
theorem acyclic_of_measure {g : Graph} (f : Nat → Nat) (hf : ∀ a b, g.Edge a b → f b < f a)
    (n : Nat) : ¬ Relation.TransGen g.Edge n n := by
  have hpath : ∀ b, Relation.TransGen g.Edge n b → f b < f n := by
    intro b h
    induction h with
    | single hedge => exact hf _ _ hedge
    | tail _ hedge ih => exact Nat.lt_trans (hf _ _ hedge) ih
  exact fun h => Nat.lt_irrefl _ (hpath n h)

/-- Greatest measure of a child of a node. -/
def greatestBelow (g : Graph) (f : Nat → Nat) (a : Nat) : Nat :=
  ((g.children a).map f).foldr max 0

theorem le_greatestBelow {g : Graph} (f : Nat → Nat) (h : g.Edge a b) :
    f b ≤ greatestBelow g f a :=
  List.le_max_of_le (List.mem_map_of_mem h) (Nat.le_refl _)

theorem greatestBelow_le {g : Graph} {f : Nat → Nat} {bound : Nat}
    (h : ∀ b, g.Edge a b → f b ≤ bound) : greatestBelow g f a ≤ bound := by
  apply List.max_le_of_forall_le
  intro x hx
  obtain ⟨b, hb, rfl⟩ := List.mem_map.1 hx
  exact h b hb

/-- A measure that decreases with every step down excludes cycles of the merged graph: a
conjunction fits in between its owner and the nodes below. -/
theorem acyclic_build (hi : i.Paired) (f : Nat → Nat) (hf : ∀ a b, i.Below a b → f b < f a)
    (n : Nat) : ¬ Relation.TransGen (build i).graph.Edge n n := by
  refine acyclic_of_measure (fun a => if a < i.origins.length then 2 * f a
    else 2 * greatestBelow (build i).graph f a + 1) (fun a b h => ?_) n
  rcases edge_cases h with hbelow | ⟨ha, hb, ⟨z, hz⟩, hchildren⟩ | ⟨ha, owner, hbelow⟩
  · obtain ⟨ha, hb⟩ := Input.below_lt hi hbelow
    have := hf a b hbelow
    rw [if_pos ha, if_pos hb]
    omega
  · have hpos := hf a z (hchildren z hz)
    have htop : greatestBelow (build i).graph f b ≤ f a - 1 :=
      greatestBelow_le fun z hz => Nat.le_sub_one_of_lt (hf a z (hchildren z hz))
    rw [if_pos ha, if_neg (Nat.not_lt.2 hb)]
    omega
  · have htop := le_greatestBelow f h
    rw [if_neg (Nat.not_lt.2 ha), if_pos (Input.below_lt hi hbelow).2]
    omega

end Concordance.Merged
