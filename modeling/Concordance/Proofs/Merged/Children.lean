import Concordance.Proofs.Merged.Rooted
import Concordance.Proofs.Merged.Sides
import Concordance.Proofs.Merged.Size

/-!
# Children of merged nodes

A merged node has the merged nodes of its reference node's children below it,
followed by those of its comparison node's children that are not among them. If
its kind admits one child only and there are more, they are children of a
conjunction that stands below this node and below no other. So every merged node
has as many children as its kind admits.
-/
namespace Concordance.Merged

open Expression Matching

variable {i : Input} {side : Side} {a b n s k : Nat} {o : Origin}

/-- Merged node of a node of a side. -/
def image? (m : Merged) (side : Side) (n : Nat) : Option Nat :=
  side.pick (m.ofReference? n) (m.ofComparison? n)

/-- Children of a merged node, with the children of a conjunction that was put in in its place. -/
def throughConjunction (m : Merged) (a : Nat) : List Nat :=
  (m.graph.children a).flatMap fun s =>
    if (m.nodes.get? s).map (·.origin) = some .synthetic then m.graph.children s else [s]

namespace Input

/-- Merged nodes of the children of the node of a side behind an origin, in stored order. -/
def childImages (i : Input) (m : Merged) (side : Side) (o : Origin) : List (Option Nat) :=
  match o.node? side with
  | none => []
  | some n => ((i.tree side).children n).map (m.image? side)

/-- Merged nodes of the children on the reference side, then those of the children on the
comparison side that are not listed already. -/
def unitedImages (i : Input) (m : Merged) (o : Origin) : List (Option Nat) :=
  i.childImages m .reference o ++
    (i.childImages m .comparison o).filter (· ∉ i.childImages m .reference o)

/-- The pairs of an input are pairs of nodes of one kind. -/
def KindsAgree (i : Input) : Prop :=
  ∀ r c, i.mapping.comparisonFor? r = some c → i.reference.kind? r = i.comparison.kind? c

/-- A merged graph has the edges of both expressions, and its nodes have as many children as their
kinds admit. -/
structure UnitesEdges (i : Input) (m : Merged) : Prop where
  /-- Every node of either side is behind a merged node. -/
  placed : ∀ side, ∀ n < (i.tree side).size, ∃ a v, m.image? side n = some a ∧
    m.nodes.get? a = some v ∧ v.origin.node? side = some n
  united : ∀ a v, m.nodes.get? a = some v → v.origin ≠ .synthetic →
    (m.throughConjunction a).map some = i.unitedImages m v.origin ∧ (m.throughConjunction a).Nodup
  admitted : ∀ a v, m.nodes.get? a = some v → v.kind.arity.admits v.children.length = true
  conjoined : ∀ a v, m.nodes.get? a = some v → v.origin ≠ .synthetic →
    ((∃ s d, s ∈ v.children ∧ m.nodes.get? s = some d ∧ d.origin = .synthetic) ↔
      v.kind.arity = .single ∧ 1 < (i.unitedImages m v.origin).length)
  owned : ∀ s d, m.nodes.get? s = some d → d.origin = .synthetic → d.kind = .conjunction ∧
    ∃ a v, m.parents s = [a] ∧ m.nodes.get? a = some v ∧ v.origin ≠ .synthetic ∧ v.children = [s]

theorem mem_unitedImages {image : Option Nat} :
    image ∈ i.unitedImages (build i) o ↔ ∃ side, image ∈ i.childImages (build i) side o := by
  rw [unitedImages, List.mem_append, List.mem_filter]
  constructor
  · rintro (h | ⟨h, -⟩)
    · exact ⟨.reference, h⟩
    · exact ⟨.comparison, h⟩
  · rintro ⟨side, h⟩
    by_cases hreference : image ∈ i.childImages (build i) .reference o
    · exact .inl hreference
    · cases side with
      | reference => exact .inl h
      | comparison => exact .inr ⟨h, by simpa using hreference⟩

theorem image?_eq_some_iff (hi : i.Paired) (hn : n < (i.tree side).size) :
    (build i).image? side n = some k ↔ i.Place side n k := by
  cases side with
  | reference => exact referenceIndex_eq_some_iff hi hn
  | comparison => exact comparisonIndex_eq_some_iff hi hn

/-- Merged nodes of the children on a side, as numbers. -/
def joinedImages (i : Input) (side : Side) (o : Origin) : List Nat :=
  (i.childImages (build i) side o).filterMap id

end Input

/-- A union without repetition lists the new elements in their order. -/
theorem union_eq_append {xs ys : List Nat} (h : ys.Nodup) :
    union xs ys = xs ++ ys.filter (· ∉ xs) := by
  induction ys generalizing xs with
  | nil => simp [union]
  | cons y ys ih =>
    obtain ⟨hy, hys⟩ := List.nodup_cons.1 h
    have hstep : union xs (y :: ys) = union (if y ∈ xs then xs else xs ++ [y]) ys := rfl
    rw [hstep, ih hys]
    by_cases hmem : y ∈ xs
    · simp [hmem]
    · have hfilter : ys.filter (· ∉ xs ++ [y]) = ys.filter (· ∉ xs) := by
        apply List.filter_congr
        intro z hz
        have hzy : z ≠ y := fun heq => hy (heq ▸ hz)
        simp [hzy]
      rw [if_neg hmem, hfilter, List.filter_cons_of_pos (by simpa using hmem), List.append_assoc]
      rfl

namespace Input

section Paired

variable (hi : i.Paired)

include hi

theorem exists_image? (hn : n < (i.tree side).size) : ∃ k, (build i).image? side n = some k := by
  obtain ⟨k, hk⟩ := exists_place hi side hn
  exact ⟨k, (image?_eq_some_iff hi hn).2 hk⟩

theorem image?_injective {x : Nat} (hn : n < (i.tree side).size) (hx : x < (i.tree side).size)
    (h : (build i).image? side n = (build i).image? side x) : n = x := by
  obtain ⟨k, hk⟩ := exists_image? hi hn
  have hplace := (image?_eq_some_iff hi hn).1 hk
  have hplace' := (image?_eq_some_iff hi hx).1 (h ▸ hk)
  exact origin_injective hi (hplace.unique hplace')

theorem map_joinedImages (side : Side) (o : Origin) :
    (i.joinedImages side o).map some = i.childImages (build i) side o := by
  unfold joinedImages childImages
  cases o.node? side with
  | none => rfl
  | some n =>
    dsimp only
    rw [List.filterMap_map, List.map_filterMap]
    apply List.filterMap_eq_map_iff_forall_eq_some.2
    intro x hx
    obtain ⟨k, hk⟩ := exists_image? hi (lt_size_of_mem_children hx).1
    simp [hk]

theorem nodup_childImages (side : Side) (o : Origin) : (i.childImages (build i) side o).Nodup := by
  unfold childImages
  cases o.node? side with
  | none => exact List.nodup_nil
  | some n =>
    apply List.Nodup.map_on _ ((i.tree side).children_nodup n)
    intro x hx y hy heq
    exact image?_injective hi (lt_size_of_mem_children hx).1 (lt_size_of_mem_children hy).1 heq

theorem nodup_joinedImages (side : Side) (o : Origin) : (i.joinedImages side o).Nodup :=
  List.Nodup.of_map some (map_joinedImages hi side o ▸ nodup_childImages hi side o)

/-- The children of a side are those of the node that has its place here. -/
theorem joinedChildren_eq_union (ho : i.origins[a]? = some o) : i.numbered.joinedChildren a o =
    union (i.joinedImages .reference o) (i.joinedImages .comparison o) := by
  have hplace : ∀ side n, o.node? side = some n → (build i).image? side n = some a := by
    intro side n hn
    obtain ⟨hsize, rfl⟩ := eq_origin hi (List.mem_of_getElem? ho) hn
    exact (image?_eq_some_iff hi hsize).2 ho
  have hreference : ∀ r, o.reference? = some r → i.referenceIndex[r]?.getD none = some a :=
    hplace .reference
  have hcomparison : ∀ c, o.comparison? = some c → i.comparisonIndex[c]?.getD none = some a :=
    hplace .comparison
  have hreferenceImages : i.joinedImages .reference o =
      o.reference?.elim [] fun r => indicesOf i.referenceIndex (i.reference.children r) := by
    unfold joinedImages childImages Origin.node? Side.pick
    cases o.reference? with
    | none => rfl
    | some r => exact List.filterMap_map
  have hcomparisonImages : i.joinedImages .comparison o =
      o.comparison?.elim [] fun c => indicesOf i.comparisonIndex (i.comparison.children c) := by
    unfold joinedImages childImages Origin.node? Side.pick
    cases o.comparison? with
    | none => rfl
    | some c => exact List.filterMap_map
  rw [hreferenceImages, hcomparisonImages]
  unfold Numbered.joinedChildren Input.numbered
  cases hr : o.reference? with
  | none =>
    cases hc : o.comparison? with
    | none => rfl
    | some c => simp [hcomparison c hc]
  | some r =>
    cases hc : o.comparison? with
    | none => simp [hreference r hr, union]
    | some c => simp [hreference r hr, hcomparison c hc]

/-- The joined children of an origin are the united images of the children of its nodes. -/
theorem map_joinedChildren (ho : i.origins[a]? = some o) :
    (i.numbered.joinedChildren a o).map some = i.unitedImages (build i) o := by
  rw [joinedChildren_eq_union hi ho, union_eq_append (nodup_joinedImages hi _ o), List.map_append,
    unitedImages, ← map_joinedImages hi, ← map_joinedImages hi, List.filter_map]
  congr 2
  apply List.filter_congr
  intro b _
  have hmem : some b ∈ (i.joinedImages .reference o).map some ↔
      b ∈ i.joinedImages .reference o := by
    simp
  simp only [Function.comp, hmem]

theorem nodup_joinedChildren (ho : i.origins[a]? = some o) :
    (i.numbered.joinedChildren a o).Nodup := by
  apply List.Nodup.of_map some
  rw [map_joinedChildren hi ho, unitedImages, List.nodup_append]
  refine ⟨nodup_childImages hi _ o, (nodup_childImages hi _ o).filter _, ?_⟩
  intro x hx y hy heq
  simp [heq ▸ hx] at hy

theorem length_joinedChildren (ho : i.origins[a]? = some o) :
    (i.numbered.joinedChildren a o).length = (i.unitedImages (build i) o).length := by
  rw [← map_joinedChildren hi ho, List.length_map]

end Paired
end Input

/-- Conjunctions are numbered in the order of their owners. -/
theorem conjoin_overfull (next : Nat) {ns : List MergedNode} {v : MergedNode} (h : ns[a]? = some v)
    (hfull : isOverfull v = true) : (conjoin next ns).1[a]? =
      some { v with children := [next + (ns.take a).countP isOverfull] } := by
  induction ns generalizing next a with
  | nil => simp at h
  | cons w ns ih =>
    rw [conjoin]
    cases a with
    | zero =>
      obtain rfl : w = v := by simpa using h
      simp [hfull]
    | succ a =>
      rw [List.getElem?_cons_succ] at h
      rw [List.take_succ_cons, List.countP_cons]
      split
      · simp [ih (next + 1) h]
        omega
      · simp [ih next h]

/-- Different owners have different conjunctions. -/
theorem owner_unique {ns : List MergedNode} {v w : MergedNode} (ha : ns[a]? = some v)
    (hb : ns[b]? = some w) (hv : isOverfull v = true) (hw : isOverfull w = true)
    (h : (ns.take a).countP isOverfull = (ns.take b).countP isOverfull) : a = b := by
  have hless : ∀ {a b : Nat} {v : MergedNode}, ns[a]? = some v → isOverfull v = true → a < b →
      (ns.take a).countP isOverfull < (ns.take b).countP isOverfull := by
    intro a b v ha hv hab
    have hstep : (ns.take (a + 1)).countP isOverfull = (ns.take a).countP isOverfull + 1 := by
      rw [List.take_add_one, ha, List.countP_append]
      simp [hv]
    have hmono : (ns.take (a + 1)).countP isOverfull ≤ (ns.take b).countP isOverfull :=
      (List.take_prefix_take_left hab).sublist.countP_le
    omega
  rcases Nat.lt_trichotomy a b with hab | hab | hab
  · have := hless ha hv hab
    omega
  · exact hab
  · have := hless hb hw hab
    omega

theorem getElem?_joinedNodes_of_origin (ho : i.origins[a]? = some o) :
    i.numbered.joinedNodes[a]? = some (i.numbered.joinedNode a o) := by
  rw [getElem?_joinedNodes, ho, Option.map_some]

theorem get?_build_of_overfull (ho : i.origins[a]? = some o)
    (hfull : isOverfull (i.numbered.joinedNode a o) = true) :
    (build i).nodes.get? a = some { i.numbered.joinedNode a o with
      children := [i.origins.length + (i.numbered.joinedNodes.take a).countP isOverfull] } := by
  rw [get?_build_of_lt (List.getElem?_eq_some_iff.1 ho).1]
  exact conjoin_overfull _ (getElem?_joinedNodes_of_origin ho) hfull

/-- The place of an owner among the overfull nodes is that of its conjunction behind all nodes. -/
theorem eq_of_owner (ho : i.origins[a]? = some o)
    (hfull : isOverfull (i.numbered.joinedNode a o) = true)
    (howner : (build i).nodes.get? a = some { i.numbered.joinedNode a o with children := [s] }) :
    s = i.origins.length + (i.numbered.joinedNodes.take a).countP isOverfull := by
  have hchildren := congrArg MergedNode.children
    (Option.some.inj (howner.symm.trans (get?_build_of_overfull ho hfull)))
  exact (List.cons.inj hchildren).1

theorem mem_parents {m : Merged} : a ∈ m.parents b ↔ m.graph.Edge a b := by
  rw [edge_iff]
  simp [parents, Arena.entries, Arena.get?_eq, List.mem_zipIdx_iff_getElem?]

theorem nodup_parents (m : Merged) (b : Nat) : (m.parents b).Nodup := by
  have hentries : (m.nodes.entries.map Prod.fst).Nodup := by
    rw [Arena.map_fst_entries]
    exact List.nodup_range
  rw [parents, List.Nodup, List.pairwise_filterMap]
  apply (List.pairwise_map.1 hentries).imp
  intro x y hne k hk l hl
  simp only [Option.ite_none_right_eq_some, Option.some.injEq] at hk hl
  rw [← hk.2, ← hl.2]
  exact hne

section Paired

variable (hi : i.Paired)

include hi

/-- Only nodes of the inputs are below another node before conjunctions are put in. -/
theorem lt_of_mem_joinedChildren (ho : i.origins[a]? = some o)
    (hb : b ∈ i.numbered.joinedChildren a o) : b < i.origins.length :=
  (Input.below_lt hi ⟨o, ho, hb⟩).2

theorem lt_length_iff {v : MergedNode} (hv : (build i).nodes.get? a = some v) :
    a < i.origins.length ↔ v.origin ≠ .synthetic := by
  constructor
  · intro ha hsynthetic
    obtain ⟨w, hw, horigin, -⟩ := exists_node_of_origin (List.getElem?_eq_getElem ha)
    obtain rfl : w = v := Option.some.inj (hw.symm.trans hv)
    apply synthetic_notMem_origins hi
    rw [← hsynthetic, horigin]
    exact List.getElem_mem ha
  · intro horigin
    by_contra ha
    obtain ⟨owner, o, -, -, -, rfl⟩ := get?_build_of_le (Nat.not_lt.1 ha) hv
    exact horigin rfl

/-- A merged node that is no conjunction is listed by its origin. -/
theorem getElem?_origins_of_node {v : MergedNode} (hv : (build i).nodes.get? a = some v)
    (horigin : v.origin ≠ .synthetic) : i.origins[a]? = some v.origin := by
  have ho := List.getElem?_eq_getElem ((lt_length_iff hi hv).2 horigin)
  obtain ⟨w, hw, heq, -⟩ := exists_node_of_origin ho
  obtain rfl := Option.some.inj (hw.symm.trans hv)
  exact ho.trans (congrArg some heq.symm)

theorem isOverfull_joinedNode_iff (ho : i.origins[a]? = some o) :
    isOverfull (i.numbered.joinedNode a o) = true ↔
      (i.numbered.joinedNode a o).kind.arity = .single ∧
        1 < (i.unitedImages (build i) o).length := by
  rw [isOverfull, Bool.and_eq_true, beq_iff_eq, decide_eq_true_eq,
    ← Input.length_joinedChildren hi ho]
  rfl

/-- The owner of a conjunction is its only parent. -/
theorem parents_conjunction (ho : i.origins[a]? = some o)
    (hfull : isOverfull (i.numbered.joinedNode a o) = true) (hs : i.origins.length ≤ s)
    (howner : (build i).nodes.get? a = some { i.numbered.joinedNode a o with children := [s] }) :
    (build i).parents s = [a] := by
  have hunique : ∀ b, (build i).graph.Edge b s → b = a := by
    intro b hedge
    obtain ⟨v, hv, hsv⟩ := edge_iff.1 hedge
    by_cases hb : b < i.origins.length
    · have ho' := List.getElem?_eq_getElem hb
      rcases get?_build_of_origin ho' with ⟨-, hnode⟩ | ⟨hfull', t, -, hnode, -⟩
      · obtain rfl := Option.some.inj (hv.symm.trans hnode)
        have := lt_of_mem_joinedChildren hi ho' hsv
        omega
      · obtain rfl := Option.some.inj (hv.symm.trans hnode)
        obtain rfl : s = t := List.mem_singleton.1 hsv
        have hcount := eq_of_owner ho hfull howner
        have hcount' := eq_of_owner ho' hfull' hnode
        exact owner_unique (getElem?_joinedNodes_of_origin ho')
          (getElem?_joinedNodes_of_origin ho) hfull' hfull (by omega)
    · obtain ⟨owner, o', ho', -, -, rfl⟩ := get?_build_of_le (Nat.not_lt.1 hb) hv
      have := lt_of_mem_joinedChildren hi ho' hsv
      omega
  have hmem : ∀ b, b ∈ (build i).parents s ↔ b ∈ [a] := by
    intro b
    rw [mem_parents, List.mem_singleton]
    constructor
    · exact hunique b
    · intro hba
      exact edge_iff.2 ⟨_, hba ▸ howner, List.mem_singleton_self s⟩
  have hperm := (List.perm_ext_iff_of_nodup (nodup_parents _ s) (List.nodup_singleton a)).2 hmem
  exact List.perm_singleton.1 hperm

/-- Looking through conjunctions gives the children before any conjunction was put in. -/
theorem throughConjunction_build (ho : i.origins[a]? = some o) :
    (build i).throughConjunction a = i.numbered.joinedChildren a o := by
  have hchildren : ∀ {k v}, (build i).nodes.get? k = some v →
      (build i).graph.children k = v.children := by
    intro k v hv
    simp [graph, hv]
  unfold throughConjunction
  rcases get?_build_of_origin ho with ⟨-, hnode⟩ | ⟨-, t, -, hnode, hconjunction⟩
  · have hplain : ∀ b ∈ i.numbered.joinedChildren a o,
        ((build i).nodes.get? b).map (·.origin) ≠ some .synthetic := by
      intro b hb hsynthetic
      obtain ⟨v, hv, horigin⟩ := Option.map_eq_some_iff.1 hsynthetic
      exact (lt_length_iff hi hv).1 (lt_of_mem_joinedChildren hi ho hb) horigin
    rw [hchildren hnode]
    exact (List.flatMap_congr fun b hb => if_neg (hplain b hb)).trans (List.flatMap_singleton' _)
  · rw [hchildren hnode]
    simp [hconjunction, hchildren hconjunction, conjunctionOf, Numbered.joinedNode]

/-- A node has a conjunction below it if and only if it would be overfull otherwise. -/
theorem exists_conjunction_iff {v : MergedNode} (ho : i.origins[a]? = some o)
    (hv : (build i).nodes.get? a = some v) :
    (∃ s d, s ∈ v.children ∧ (build i).nodes.get? s = some d ∧ d.origin = .synthetic) ↔
      isOverfull (i.numbered.joinedNode a o) = true := by
  rcases get?_build_of_origin ho with ⟨hfull, hnode⟩ | ⟨hfull, t, -, hnode, hconjunction⟩
  · obtain rfl := Option.some.inj (hv.symm.trans hnode)
    rw [hfull]
    constructor
    · rintro ⟨s, d, hs, hd, hsynthetic⟩
      exact absurd hsynthetic
        ((lt_length_iff hi hd).1 (lt_of_mem_joinedChildren hi ho hs))
    · intro h
      cases h
  · obtain rfl := Option.some.inj (hv.symm.trans hnode)
    rw [hfull]
    exact iff_of_true ⟨t, _, List.mem_singleton_self t, hconjunction, rfl⟩ rfl

theorem exists_node? (ho : o ∈ i.origins) : ∃ side n, o.node? side = some n := by
  rcases (Input.mem_origins hi).1 ho with ⟨r, -, rfl⟩ | ⟨c, -, -, rfl⟩
  · exact ⟨.reference, r, i.reference?_referenceOrigin r⟩
  · exact ⟨.comparison, c, rfl⟩

section Kinds

variable (hkinds : i.KindsAgree)

include hkinds

/-- All nodes behind an origin have its kind. -/
theorem kind?_of_node? (ho : o ∈ i.origins) (hn : o.node? side = some n) :
    (i.tree side).kind? n = i.kind? o := by
  cases o with
  | shared r c q =>
    cases side with
    | reference =>
      obtain rfl : r = n := Option.some.inj hn
      rfl
    | comparison =>
      obtain rfl : c = n := Option.some.inj hn
      obtain ⟨-, horigin⟩ := Input.eq_referenceOrigin hi ho (r := r) rfl
      have hpair : i.mapping.comparisonFor? r = some c := by
        rw [← Input.comparison?_referenceOrigin hi r, ← horigin]
        rfl
      exact (hkinds r c hpair).symm
  | reference r =>
    cases side with
    | reference =>
      obtain rfl : r = n := Option.some.inj hn
      rfl
    | comparison => cases hn
  | comparison c =>
    cases side with
    | reference => cases hn
    | comparison =>
      obtain rfl : c = n := Option.some.inj hn
      rfl
  | synthetic => cases side <;> cases hn

theorem exists_kind?_of_origin (ho : o ∈ i.origins) : ∃ k, i.kind? o = some k := by
  obtain ⟨side, n, hn⟩ := exists_node? hi ho
  obtain ⟨k, hk⟩ := exists_kind? (Input.eq_origin hi ho hn).1
  exact ⟨k, by rw [← kind?_of_node? hi hkinds ho hn, hk]⟩

/-- Leaves have no children on either side, all other nodes have some. -/
theorem unitedImages_eq_nil_iff {k : Kind} (ho : o ∈ i.origins) (hk : i.kind? o = some k) :
    i.unitedImages (build i) o = [] ↔ k.isLeaf = true := by
  constructor
  · intro hnil
    obtain ⟨side, n, hn⟩ := exists_node? hi ho
    have hkind := (kind?_of_node? hi hkinds ho hn).trans hk
    by_contra hleaf
    obtain ⟨x, hx⟩ := List.exists_mem_of_ne_nil _ (children_ne_nil hkind (by simpa using hleaf))
    have himage : (build i).image? side x ∈ i.unitedImages (build i) o := by
      rw [Input.mem_unitedImages]
      refine ⟨side, ?_⟩
      rw [Input.childImages, hn]
      exact List.mem_map_of_mem hx
    simp [hnil] at himage
  · intro hleaf
    apply List.eq_nil_iff_forall_not_mem.2
    intro image himage
    obtain ⟨side, hside⟩ := Input.mem_unitedImages.1 himage
    unfold Input.childImages at hside
    cases hn : o.node? side with
    | none => simp [hn] at hside
    | some n =>
      have hkind := (kind?_of_node? hi hkinds ho hn).trans hk
      simp [hn, children_eq_nil hkind hleaf] at hside

/-- A node that is not overfull has as many joined children as its kind admits. -/
theorem admits_joinedChildren (ho : i.origins[a]? = some o)
    (hfull : isOverfull (i.numbered.joinedNode a o) = false) :
    (i.numbered.joinedNode a o).kind.arity.admits (i.numbered.joinedChildren a o).length =
      true := by
  have hmem := List.mem_of_getElem? ho
  obtain ⟨k, hk⟩ := exists_kind?_of_origin hi hkinds hmem
  have hkind : (i.numbered.joinedNode a o).kind = k := by
    show (i.kind? o).getD .conjunction = k
    rw [hk]
    rfl
  have hnil : (i.numbered.joinedChildren a o).length = 0 ↔ k.arity = .leaf := by
    rw [Input.length_joinedChildren hi ho, List.length_eq_zero_iff,
      unitedImages_eq_nil_iff hi hkinds hmem hk, Kind.isLeaf, beq_iff_eq]
  have hbound : k.arity = .single → (i.numbered.joinedChildren a o).length ≤ 1 := by
    intro hsingle
    by_contra hmany
    have hover := (isOverfull_joinedNode_iff hi ho).2
      ⟨by rw [hkind, hsingle], by rw [← Input.length_joinedChildren hi ho]; omega⟩
    simp [hfull] at hover
  rw [hkind]
  cases harity : k.arity with
  | leaf => exact beq_iff_eq.2 (hnil.2 harity)
  | single =>
    have hsome : (i.numbered.joinedChildren a o).length ≠ 0 := by simp [hnil, harity]
    have hone := hbound harity
    exact beq_iff_eq.2 (by omega)
  | atLeastOne =>
    have hsome : (i.numbered.joinedChildren a o).length ≠ 0 := by simp [hnil, harity]
    exact decide_eq_true (by omega)

end Kinds
end Paired

/-- For every mapping that pairs nodes of one kind, the merged graph has the edges of both
expressions: the children of every merged node are those of its reference node and then the further
ones of its comparison node, and where its kind admits one child only, a conjunction holds them. -/
theorem build_unites_edges (i : Input) (hi : i.Paired) (hkinds : i.KindsAgree) :
    i.UnitesEdges (build i) where
  placed side n hn := by
    obtain ⟨a, ha⟩ := Input.exists_place hi side hn
    obtain ⟨v, hv, horigin, -⟩ := exists_node_of_origin ha
    refine ⟨a, v, (Input.image?_eq_some_iff hi hn).2 ha, hv, ?_⟩
    rw [horigin, Input.node?_origin hi]
  united a v hv horigin := by
    have ho := getElem?_origins_of_node hi hv horigin
    rw [throughConjunction_build hi ho]
    exact ⟨Input.map_joinedChildren hi ho, Input.nodup_joinedChildren hi ho⟩
  admitted a v hv := by
    by_cases ha : a < i.origins.length
    · have ho := List.getElem?_eq_getElem ha
      rcases get?_build_of_origin ho with ⟨hfull, hnode⟩ | ⟨hfull, s, -, hnode, -⟩
      · obtain rfl := Option.some.inj (hv.symm.trans hnode)
        exact admits_joinedChildren hi hkinds ho hfull
      · obtain rfl := Option.some.inj (hv.symm.trans hnode)
        simp only [isOverfull, Bool.and_eq_true, beq_iff_eq] at hfull
        simp [hfull.1, Arity.admits]
    · obtain ⟨owner, o, -, hfull, -, rfl⟩ := get?_build_of_le (Nat.not_lt.1 ha) hv
      simp only [isOverfull, Bool.and_eq_true, decide_eq_true_eq] at hfull
      simpa [conjunctionOf, Kind.arity, Arity.admits] using Nat.le_of_lt hfull.2
  conjoined a v hv horigin := by
    have ho := getElem?_origins_of_node hi hv horigin
    obtain ⟨w, hw, -, hkind, -⟩ := exists_node_of_origin ho
    obtain rfl := Option.some.inj (hw.symm.trans hv)
    rw [exists_conjunction_iff hi ho hv, isOverfull_joinedNode_iff hi ho, ← hkind]
  owned s d hd horigin := by
    have hs : i.origins.length ≤ s := by
      by_contra hs
      exact (lt_length_iff hi hd).1 (Nat.not_le.1 hs) horigin
    obtain ⟨a, o, ho, hfull, howner, rfl⟩ := get?_build_of_le hs hd
    refine ⟨rfl, a, _, parents_conjunction hi ho hfull hs howner, howner, ?_, rfl⟩
    exact (lt_length_iff hi howner).1 (List.getElem?_eq_some_iff.1 ho).1

section Levelled

variable {p : Problem} {m : Mapping} (hm : Levelled p m)

include hm

theorem paired_of_levelled : (p.input m).Paired := hm.fair.valid

theorem kindsAgree_of_levelled : (p.input m).KindsAgree := hm.fair.kinds

end Levelled

theorem merged_ofExpressions (reference comparison : Expression) (config : Config) :
    (Correlation.ofExpressions reference comparison config).merged =
      build ((Problem.ofExpressions reference comparison config).input
        (run (.ofExpressions reference comparison config)).mapping) := rfl

/-- Six nodes of the first expression and a conjunction below the shared set. -/
theorem build_unites_edges_twoSets :
    (Correlation.ofExpressions Sample.twoSets Sample.oneSet {}).merged.size = 7 ∧
      ((Problem.ofExpressions Sample.twoSets Sample.oneSet {}).input
        (run (.ofExpressions Sample.twoSets Sample.oneSet {})).mapping).UnitesEdges
          (Correlation.ofExpressions Sample.twoSets Sample.oneSet {}).merged := by
  have hm := levelled_run (Problem.sound_ofExpressions {} Sample.collisionFree)
  refine ⟨Sample.correlated.1, ?_⟩
  rw [merged_ofExpressions]
  exact build_unites_edges _ (paired_of_levelled hm) (kindsAgree_of_levelled hm)

end Concordance.Merged
