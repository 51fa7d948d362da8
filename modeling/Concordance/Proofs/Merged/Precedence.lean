import Concordance.Proofs.Matching.Spine
import Concordance.Proofs.Merged.Numbering
import Concordance.Proofs.Spans

/-!
# Parents in walks of merged graphs

Every node of an expression has one parent at most, so a merged node has one
parent at most for each of the two expressions. The two differ only at a pair
whose nodes do not hang below the nodes of another pair. Such a pair is shared by
two parents, and a pre-order walk lists it below the one that it comes to first.
The other one comes after it unless it lies below the first as well.
-/
namespace Concordance.Merged

open Expression Matching

variable {i : Input} {side side' : Side} {a b p q n k l : Nat}

/-- A pre-order walk lists every node after all of its parents. -/
def ParentsPrecede (m : Merged) : Prop :=
  ∀ n, ∀ p ∈ m.parents n, m.graph.Precedes p n

/-- The order in which a pre-order walk of the merged graph of a mapping lists nodes and their
parents. -/
structure OrdersParents (m : Merged) (mapping : Mapping) (reference comparison : Expression) :
    Prop where
  listed : m.graph.preOrder.Perm (List.range m.size)
  parents_root : m.parents m.root = []
  exists_parent : ∀ n < m.size, n ≠ m.root → ∃ p ∈ m.parents n, m.graph.Precedes p n
  /-- Only a pair that is not attached can come before a parent, and only before one of two. -/
  late : ∀ n, ∀ p ∈ m.parents n, ¬ m.graph.Precedes p n →
    ∃ first v r x quality, (m.parents n).Perm [first, p] ∧ m.graph.Precedes first n ∧
      m.nodes.get? n = some v ∧ v.origin = .shared r x quality ∧
      ¬ mapping.Attached reference comparison r x
  /-- It does so if the first of its parents does not lead to the other one. -/
  before_late : ∀ n, ∀ first ∈ m.parents n, ∀ p ∈ m.parents n, m.graph.Precedes first p →
    ¬ Relation.ReflTransGen m.graph.Edge first p → m.graph.Precedes n p
  precede_of_attached : (∀ r x quality, mapping.correspondence? r = some ⟨x, quality⟩ →
    mapping.Attached reference comparison r x) → m.ParentsPrecede

namespace Input

/-- One merged node is below another on a side before any conjunction is put in. -/
def BelowOn (i : Input) (side : Side) (a b : Nat) : Prop :=
  ∃ n x, x ∈ (i.tree side).children n ∧ i.Place side n a ∧ i.Place side x b

/-- The merged node that has the children of another one: that node, or its conjunction. -/
def holder (i : Input) (a : Nat) : Nat :=
  if i.numbered.joinedNodes[a]?.any isOverfull then
    i.origins.length + (i.numbered.joinedNodes.take a).countP isOverfull
  else a

theorem holder_of_origin {o : Origin} (ho : i.origins[a]? = some o) : i.holder a =
    if isOverfull (i.numbered.joinedNode a o) then
      i.origins.length + (i.numbered.joinedNodes.take a).countP isOverfull
    else a := by
  rw [holder, getElem?_joinedNodes_of_origin ho, Option.any_some]

section Paired

variable (hi : i.Paired)

include hi

theorem Place.index_unique (hk : i.Place side n k) (hl : i.Place side n l) : k = l := by
  have hn := hk.lt_size hi
  exact Option.some.inj (((image?_eq_some_iff hi hn).2 hk).symm.trans
    ((image?_eq_some_iff hi hn).2 hl))

/-- On each side a merged node is below one other node at most. -/
theorem BelowOn.unique (ha : i.BelowOn side a n) (hb : i.BelowOn side b n) : a = b := by
  obtain ⟨s, x, hx, hplace, hn⟩ := ha
  obtain ⟨t, y, hy, hplace', hn'⟩ := hb
  obtain rfl : x = y := origin_injective hi (hn.unique hn')
  obtain rfl : s = t := parent_unique hx hy
  exact hplace.index_unique hi hplace'

/-- What is below different nodes on the two sides is a pair that is not attached. -/
theorem exists_detached_pair (ha : i.BelowOn .reference a n) (hb : i.BelowOn .comparison b n)
    (hne : a ≠ b) : ∃ r x q, i.origins[n]? = some (.shared r x q) ∧
      ¬ i.mapping.Attached i.reference i.comparison r x := by
  obtain ⟨s, r', hr', hs, hn⟩ := ha
  obtain ⟨t, x', hx', ht, hn'⟩ := hb
  rcases pair_of_origin_eq hi (hn'.unique hn) with ⟨hside, -⟩ | ⟨r, x, q, hrx, hr, hx⟩
  · cases hside
  · obtain rfl : r = r' := hr
    obtain rfl : x = x' := hx
    refine ⟨r, x, q, hn.trans (congrArg some (origin_of_pair hi hrx .reference)), ?_⟩
    rintro (⟨rfl, -⟩ | ⟨s', t', hs', ht', hst⟩)
    · exact root_notMem_children _ _ hr'
    · obtain rfl : s' = s := parent_unique (parent?_eq_some_iff.1 hs') hr'
      obtain rfl : t' = t := parent_unique (parent?_eq_some_iff.1 ht') hx'
      obtain ⟨q', hq'⟩ := Mapping.comparisonFor?_eq_some_iff.1 hst
      have hpair := origin_of_pair hi hq'
      have hsame : i.origin .comparison t' = i.origin .reference s' :=
        (hpair .comparison).trans (hpair .reference).symm
      have hs'' : i.Place .reference s' b := ht.trans (congrArg some hsame)
      exact hne (hs.index_unique hi hs'')

end Paired
end Input

section Paired

variable (hi : i.Paired)

include hi

/-- A parent of a node other than a conjunction is the holder of a node above it. -/
theorem exists_belowOn_of_mem_parents (hn : n < i.origins.length) (hp : p ∈ (build i).parents n) :
    ∃ side a, i.holder a = p ∧ i.BelowOn side a n := by
  obtain ⟨v, hv, hmem⟩ := edge_iff.1 (mem_parents.1 hp)
  obtain ⟨a, hholder, hbelow⟩ : ∃ a, i.holder a = p ∧ i.Below a n := by
    by_cases hlt : p < i.origins.length
    · have ho := List.getElem?_eq_getElem hlt
      rcases get?_build_of_origin ho with ⟨hfull, hnode⟩ | ⟨-, s, hs, hnode, -⟩
      · obtain rfl := Option.some.inj (hv.symm.trans hnode)
        refine ⟨p, ?_, _, ho, hmem⟩
        rw [Input.holder_of_origin ho, hfull]
        rfl
      · obtain rfl := Option.some.inj (hv.symm.trans hnode)
        obtain rfl : n = s := List.mem_singleton.1 hmem
        omega
    · obtain ⟨a, o, ho, hfull, howner, rfl⟩ := get?_build_of_le (Nat.not_lt.1 hlt) hv
      refine ⟨a, ?_, o, ho, hmem⟩
      rw [Input.holder_of_origin ho, if_pos hfull, ← eq_of_owner ho hfull howner]
  obtain ⟨side, hside⟩ := (Input.below_iff_place hi).1 hbelow
  exact ⟨side, a, hholder, hside⟩

theorem lt_length_of_parents_ne (hp : p ∈ (build i).parents n) (hq : q ∈ (build i).parents n)
    (hne : p ≠ q) : n < i.origins.length := by
  have hv : (build i).nodes.get? n = some _ :=
    Array.getElem?_eq_getElem (lt_size_of_edge hi (mem_parents.1 hp))
  refine (lt_length_iff hi hv).2 fun hsynthetic => hne ?_
  obtain ⟨a, ha, -⟩ := exists_owner_of_synthetic hi hv hsynthetic
  rw [ha, List.mem_singleton] at hp hq
  exact hp.trans hq.symm

/-- A node has two parents at most. -/
theorem parents_perm (hp : p ∈ (build i).parents n) (hq : q ∈ (build i).parents n)
    (hne : p ≠ q) : ((build i).parents n).Perm [p, q] := by
  have hn := lt_length_of_parents_ne hi hp hq hne
  rw [List.perm_ext_iff_of_nodup (nodup_parents _ n) (by simpa using hne)]
  intro l
  rw [List.mem_pair]
  constructor
  · intro hl
    obtain ⟨side, a, rfl, ha⟩ := exists_belowOn_of_mem_parents hi hn hp
    obtain ⟨side', b, rfl, hb⟩ := exists_belowOn_of_mem_parents hi hn hq
    obtain ⟨side'', d, rfl, hd⟩ := exists_belowOn_of_mem_parents hi hn hl
    -- one of the two is on the side of the third one
    by_cases hside : side'' = side
    · subst hside
      exact .inl (congrArg i.holder (hd.unique hi ha))
    · have hside' : side'' = side' := by
        have hsides : side ≠ side' := by
          rintro rfl
          exact hne (congrArg i.holder (ha.unique hi hb))
        cases side <;> cases side' <;> cases side'' <;> simp_all
      subst hside'
      exact .inr (congrArg i.holder (hd.unique hi hb))
  · rintro (rfl | rfl)
    · exact hp
    · exact hq

theorem detached_of_parents_ne (hp : p ∈ (build i).parents n) (hq : q ∈ (build i).parents n)
    (hne : p ≠ q) : ∃ v r x quality, (build i).nodes.get? n = some v ∧
      v.origin = .shared r x quality ∧
      ¬ i.mapping.Attached i.reference i.comparison r x := by
  have hn := lt_length_of_parents_ne hi hp hq hne
  obtain ⟨side, a, rfl, ha⟩ := exists_belowOn_of_mem_parents hi hn hp
  obtain ⟨side', b, rfl, hb⟩ := exists_belowOn_of_mem_parents hi hn hq
  have hab : a ≠ b := by
    rintro rfl
    exact hne rfl
  obtain ⟨r, x, quality, ho, hdetached⟩ : ∃ r x quality,
      i.origins[n]? = some (.shared r x quality) ∧
        ¬ i.mapping.Attached i.reference i.comparison r x := by
    cases side with
    | reference =>
      cases side' with
      | reference => exact absurd (ha.unique hi hb) hab
      | comparison => exact Input.exists_detached_pair hi ha hb hab
    | comparison =>
      cases side' with
      | reference => exact Input.exists_detached_pair hi hb ha hab.symm
      | comparison => exact absurd (ha.unique hi hb) hab
  obtain ⟨v, hv, horigin, -⟩ := exists_node_of_origin ho
  exact ⟨v, r, x, quality, hv, horigin, hdetached⟩

section Roots

variable (hroots : i.mapping.comparisonFor? i.reference.root = some i.comparison.root)

include hroots

/-- The root of a merged graph has no parents, since the root of no side has one. -/
theorem parents_root : (build i).parents (build i).root = [] := by
  apply List.eq_nil_iff_forall_not_mem.2
  intro p hp
  have hroot := (List.getElem?_eq_some_iff.1 (getElem?_origins_root hi)).1
  obtain ⟨side, a, -, n, x, hx, -, hplace⟩ := exists_belowOn_of_mem_parents hi hroot hp
  obtain rfl : x = (i.tree side).root :=
    Input.origin_injective hi (hplace.unique (Input.place_root hi hroots side))
  exact root_notMem_children _ _ hx

theorem mem_preOrder_build (hn : n < (build i).size) : n ∈ (build i).graph.preOrder := by
  have hpath : Relation.ReflTransGen (build i).graph.Step (build i).root n :=
    Relation.ReflTransGen.mono (fun _ _ h => ⟨h, lt_size_of_edge hi h⟩) _ _
      (reachable_build hi hroots hn)
  exact Graph.mem_preOrder_iff.2 ⟨root_lt_size hi, hpath⟩

theorem exists_parent_before (hn : n < (build i).size) (hroot : n ≠ (build i).root) :
    ∃ p ∈ (build i).parents n, (build i).graph.Precedes p n := by
  obtain ⟨p, hedge, hp⟩ := Graph.exists_precedes (mem_preOrder_build hi hroots hn) hroot
  exact ⟨p, mem_parents.2 hedge, hp⟩

/-- A parent that does not come before a node is not its first one. -/
theorem late_parent (hp : p ∈ (build i).parents n) (hlate : ¬ (build i).graph.Precedes p n) :
    ∃ first v r x quality, ((build i).parents n).Perm [first, p] ∧
      (build i).graph.Precedes first n ∧ (build i).nodes.get? n = some v ∧
      v.origin = .shared r x quality ∧
      ¬ i.mapping.Attached i.reference i.comparison r x := by
  have hroot : n ≠ (build i).root := by
    rintro rfl
    simp [parents_root hi hroots] at hp
  have hn := lt_size_of_edge hi (mem_parents.1 hp)
  obtain ⟨first, hfirst, hbefore⟩ := exists_parent_before hi hroots hn hroot
  have hne : first ≠ p := by
    rintro rfl
    exact hlate hbefore
  obtain ⟨v, r, x, quality, hv, horigin, hdetached⟩ := detached_of_parents_ne hi hfirst hp hne
  exact ⟨first, v, r, x, quality, parents_perm hi hfirst hp hne, hbefore, hv, horigin, hdetached⟩

end Roots
end Paired

/-- For all expressions and settings: a pre-order walk of the merged graph lists every node once,
after one of its parents. Where a pair that is not attached has a further parent, it comes before
that one unless the first parent leads to it; all other parents come first. -/
theorem merged_walk_orders_parents (reference comparison : Expression) (config : Config) :
    (Correlation.ofExpressions reference comparison config).merged.OrdersParents
      (Correlation.ofExpressions reference comparison config).mapping reference comparison := by
  have hown := Problem.own_ofExpressions reference comparison config
  have hroots := comparisonFor?_root_run hown
  have hi : ((Problem.ofExpressions reference comparison config).input
      (run (.ofExpressions reference comparison config)).mapping).Paired := (fair_run hown).valid
  rw [merged_ofExpressions]
  refine ⟨Graph.preOrder_perm_range fun n => mem_preOrder_build hi hroots, parents_root hi hroots,
    fun n => exists_parent_before hi hroots, fun n p => late_parent hi hroots, ?_, ?_⟩
  · intro n first hfirst p _ hbefore hpath
    have hedge := mem_parents.1 hfirst
    refine hbefore.child_of_not_path ⟨hedge, lt_size_of_edge hi hedge⟩ fun hsteps => hpath ?_
    exact Relation.ReflTransGen.mono (fun _ _ h => h.1) _ _ hsteps
  · intro hattached n p hp
    by_contra hlate
    obtain ⟨first, v, r, x, quality, -, -, hv, horigin, hdetached⟩ :=
      late_parent hi hroots hp hlate
    have hmem := (exists_node_iff hi (by simp)).1 ⟨n, v, hv, horigin⟩
    exact hdetached (hattached r x quality ((shared_mem_origins_iff hi).1 hmem))

/-- A concept in a necessary set. -/
def Sample.necessary : Expression where
  nodes := .ofList [⟨.concept 1, []⟩, ⟨.necessarySet, [0]⟩, ⟨.root, [1]⟩]
  root := 2
  parents := #[some 1, some 2, none]
  valid := by decide +kernel

/-- The same concept in a sufficient set. -/
def Sample.sufficient : Expression where
  nodes := .ofList [⟨.concept 1, []⟩, ⟨.sufficientSet, [0]⟩, ⟨.root, [1]⟩]
  root := 2
  parents := #[some 1, some 2, none]
  valid := by decide +kernel

/-- A concept that moves from one set to another is listed before the second of them. -/
theorem concept_before_set :
    (Correlator.default.correlate Sample.necessary Sample.sufficient).merged.graph.preOrder =
        [2, 1, 0, 3] ∧
      (Correlator.default.correlate Sample.necessary Sample.sufficient).merged.parents 0 = [1, 3] ∧
      ¬ (Correlator.default.correlate Sample.necessary
        Sample.sufficient).merged.ParentsPrecede := by
  have hwalk : (Correlator.default.correlate Sample.necessary
        Sample.sufficient).merged.graph.preOrder = [2, 1, 0, 3] ∧
      (Correlator.default.correlate Sample.necessary Sample.sufficient).merged.parents 0 =
        [1, 3] := by
    decide +kernel
  refine ⟨hwalk.1, hwalk.2, fun hprecede => ?_⟩
  have hlate := hprecede 0 3 (by rw [hwalk.2]; simp)
  rw [Graph.Precedes, hwalk.1] at hlate
  revert hlate
  decide

end Concordance.Merged
