import Concordance.Proofs.Nesting

/-!
# Shared subtrees

At a pair of role restrictions or leaves with equal content the walk of a
difference ends with a shared subtree. It does not come to such a pair below an
exact pair of roles, from neither side: everything below an exact pair hangs
below it as a pair, on both sides, so the walk could enter only through the pair
itself, where it ends. Shared role restrictions and leaves are therefore the
outermost ones, and of roles with one signature only the first is kept.
-/
namespace Concordance

open Expression Matching

namespace Difference

open Merged

variable {p : Problem} {m : Mapping} {side : Side} {a n r c : Nat} {q : Quality}
  {s : SharedSubtree}

/-- A shared subtree stands for an exact pair of one content, and no role restriction in an exact
pair lies above it. -/
structure Outermost (m : Mapping) (reference comparison : Expression) (s : SharedSubtree) :
    Prop where
  pair : m.correspondence? s.reference = some ⟨s.comparison, .exact⟩
  kind : ∀ side : Side, (side.pick reference comparison).kind?
    (side.pick s.reference s.comparison) = some s.kind
  signature : ∀ side : Side, (SignatureTable.ofExpression (side.pick reference comparison)).get?
    (side.pick s.reference s.comparison) = some s.signature
  outermost : ∀ (side : Side) (a : Nat) (k : Kind), m.InPair side .exact a →
    (side.pick reference comparison).kind? a = some k → k.isRole = true →
    (side.pick reference comparison).isAncestor a (side.pick s.reference s.comparison) = false

theorem firstOfEach_spec (subtrees : List SharedSubtree) :
    (∀ t ∈ firstOfEach subtrees, t ∈ subtrees) ∧
      ((firstOfEach subtrees).map (·.signature)).Nodup := by
  unfold firstOfEach
  refine List.foldlRecOn (motive := fun kept : List SharedSubtree =>
    (∀ t ∈ kept, t ∈ subtrees) ∧ (kept.map (·.signature)).Nodup) subtrees _ ?_ ?_
  · exact ⟨by simp, by simp⟩
  rintro kept ⟨hmem, hnodup⟩ s hs
  split
  · exact ⟨hmem, hnodup⟩
  · rename_i hnew
    have hfresh : s.signature ∉ kept.map (·.signature) := by simpa using hnew
    refine ⟨by simpa [or_imp, forall_and] using ⟨hmem, hs⟩, ?_⟩
    rw [List.map_append, List.map_singleton, (List.perm_append_singleton _ _).nodup_iff,
      List.nodup_cons]
    exact ⟨hfresh, hnodup⟩

/-- A shared subtree is an alike pair that the walk comes to and at which it ends. -/
structure SharedEnd (p : Problem) (m : Mapping) (s : SharedSubtree) : Prop where
  paired : ∃ q, m.correspondence? s.reference = some ⟨s.comparison, q⟩
  alike : p.Alike s.reference s.comparison
  kind : p.reference.kind? s.reference = some s.kind
  signature : p.referenceTable.get? s.reference = some s.signature
  terminal : (s.kind.isRole || s.kind.isLeaf) = true
  reached : Reached p m .reference s.reference

theorem sharedEnd_of_mem (hp : p.Own) (hm : Fair p m)
    (hs : s ∈ (visited (build (p.input m))).filterMap (shared? m)) : SharedEnd p m s := by
  obtain ⟨v, hvisited, hshared⟩ := List.mem_filterMap.1 hs
  obtain ⟨k, hk, hv⟩ := mem_visited.1 hvisited
  unfold shared? at hshared
  split at hshared
  · rename_i r c q horigin
    split at hshared
    · rename_i hends
      obtain ⟨signature, hsignature, rfl⟩ := Option.map_eq_some_iff.1 hshared
      rw [Bool.and_eq_true, Bool.not_eq_true', descends_of_shared horigin,
        Bool.not_eq_false'] at hends
      have hi : (p.input m).Paired := hm.valid
      have hplace : (p.input m).Place .reference r k :=
        Input.place_of_node? hi hv (by rw [horigin]; rfl)
      obtain ⟨w, hw, hshows⟩ := exists_shows hp hm hplace
      obtain rfl : w = v := Option.some.inj (hw.symm.trans hv)
      exact {
        paired := ⟨q, Input.correspondence?_of_origin hi (hshows.origin.symm.trans horigin)⟩
        alike := (hshows.content r c q horigin).1 hends.2
        kind := hshows.kind
        signature := hshows.signature.symm.trans hsignature
        terminal := hends.1
        reached := ⟨k, hk, hplace⟩ }
    · simp at hshared
  · simp at hshared

/-- A pair with a node below an exact pair is attached. -/
theorem attached_of_below_exact (hm : Levelled p m) (ha : m.InPair side .exact a)
    (hrc : m.correspondence? r = some ⟨c, q⟩)
    (habove : (p.tree side).isAncestor a (side.pick r c) = true) :
    m.Attached p.reference p.comparison r c := by
  have hsizes := hm.fair.valid.lt_sizes (Mapping.comparisonFor?_eq_some_iff.2 ⟨q, hrc⟩)
  have hsize : side.pick r c < (p.tree side).size := by
    cases side with
    | reference => exact hsizes.1
    | comparison => exact hsizes.2
  have hroot : side.pick r c ≠ (p.tree side).root := by
    intro heq
    rw [heq, not_isAncestor_root] at habove
    cases habove
  -- the parent is in an exact pair, whose children are paired with each other
  obtain ⟨w, hw⟩ := exists_parent hsize hroot
  obtain ⟨x, y, hxy, rfl⟩ := inPair_exact_of_inSubtree hm ha (lt_size_of_mem_children hw).2
    ((isAncestor_of_mem_children hw).1 habove)
  have hpartners := Mapping.comparisonFor?_eq_some_iff.2 ⟨_, hxy⟩
  have hchildren := hm.carried x y hxy
  cases side with
  | reference =>
    obtain ⟨c', hc', hrc'⟩ := hchildren.reference r hw
    obtain ⟨rfl, -⟩ := Correspondence.mk.inj (Option.some.inj (hrc.symm.trans hrc'))
    exact attached_of_mem_children hw hc' hpartners
  | comparison =>
    obtain ⟨r', hr', hrc'⟩ := hchildren.comparison c hw
    obtain rfl := hm.fair.valid.injective (Mapping.comparisonFor?_eq_some_iff.2 ⟨_, hrc⟩)
      (Mapping.comparisonFor?_eq_some_iff.2 ⟨_, hrc'⟩)
    exact attached_of_mem_children hr' hw hpartners

/-- The walk does not come to anything below an exact pair of role restrictions. -/
theorem not_reached_below_role (hm : Levelled p m)
    (hroots : m.comparisonFor? p.reference.root = some p.comparison.root) {k : Kind}
    (ha : m.InPair side .exact a) (hk : (p.tree side).kind? a = some k) (hrole : k.isRole = true)
    (hn : Reached p m side n) : (p.tree side).isAncestor a n = false := by
  by_contra habove
  rw [Bool.not_eq_false] at habove
  have hstop : ¬ Passable p m side a := fun hpass => hpass.2 ⟨k, hk, by rw [hrole]; rfl⟩
  obtain ⟨q, r, c, hrc, hdetached, hbelow, -⟩ :=
    exists_detachedBetween hm.fair hroots (hn.lt_size hm.fair) habove hstop hn
  exact hdetached (attached_of_below_exact hm ha hrc hbelow)

theorem SharedEnd.outermost (hp : p.Own) (hm : Levelled p m)
    (hroots : m.comparisonFor? p.reference.root = some p.comparison.root)
    (hs : SharedEnd p m s) : Outermost m p.reference p.comparison s := by
  obtain ⟨q, hrc⟩ := hs.paired
  obtain rfl := quality_of_alike hm hrc hs.alike
  have hreference : Reached p m .reference (Side.reference.pick s.reference s.comparison) :=
    hs.reached
  have hsignature : ∀ side : Side,
      (p.table side).get? (side.pick s.reference s.comparison) = some s.signature := by
    intro side
    cases side with
    | reference => exact hs.signature
    | comparison => exact (Problem.alike_iff hs.signature).1 hs.alike
  refine ⟨hrc, fun side => ?_, fun side => ?_, fun side a k ha hk hrole => ?_⟩
  · exact (kind?_pick hm.fair hrc side).trans hs.kind
  · have htable := hsignature side
    rwa [hp.table_eq] at htable
  · exact not_reached_below_role hm hroots ha hk hrole (reached_pick hm.fair hrc hreference side)

/-- For all expressions and settings, without collisions: shared roots are role restrictions and
shared assertions leaves, they stand for exact pairs of one content, no role restriction in an exact
pair lies above any of them, and the signatures of the shared roots are different. -/
theorem shared_subtrees_outermost (reference comparison : Expression) (config : Config)
    (hfree : CollisionFree reference comparison) :
    (∀ s ∈ (Correlation.ofExpressions reference comparison config).difference.sharedRoots,
      s.kind.isRole = true ∧ Outermost (Mapping.ofExpressions reference comparison config)
        reference comparison s) ∧
    (∀ s ∈ (Correlation.ofExpressions reference comparison config).difference.sharedAssertions,
      s.kind.isLeaf = true ∧ Outermost (Mapping.ofExpressions reference comparison config)
        reference comparison s) ∧
    ((Correlation.ofExpressions reference comparison config).difference.sharedRoots.map
      (·.signature)).Nodup := by
  have hp := Problem.sound_ofExpressions config hfree
  have hm := levelled_run hp
  have hroots := comparisonFor?_root_run hp.toOwn
  refine ⟨fun s hs => ?_, fun s hs => ?_, (firstOfEach_spec _).2⟩
  · obtain ⟨hmem, hnoleaf⟩ := List.mem_filter.1 ((firstOfEach_spec _).1 s hs)
    have hend := sharedEnd_of_mem hp.toOwn hm.fair hmem
    have hterminal := hend.terminal
    rw [Bool.not_eq_true'] at hnoleaf
    rw [hnoleaf, Bool.or_false] at hterminal
    exact ⟨hterminal, hend.outermost hp.toOwn hm hroots⟩
  · obtain ⟨hmem, hleaf⟩ := List.mem_filter.1 hs
    exact ⟨hleaf, (sharedEnd_of_mem hp.toOwn hm.fair hmem).outermost hp.toOwn hm hroots⟩

theorem Sample.evaluated_roots :
    (Correlation.ofExpressions Sample.twoSets Sample.oneSet {}).difference.sharedRoots.map
      (·.reference) = [1] := by
  decide +kernel

/-- The role over the concept is shared. -/
theorem shared_subtrees_outermost_twoSets :
    ∃ s ∈ (Correlation.ofExpressions Sample.twoSets Sample.oneSet {}).difference.sharedRoots,
      s.reference = 1 ∧ s.kind.isRole = true ∧
        Outermost (Mapping.ofExpressions Sample.twoSets Sample.oneSet {}) Sample.twoSets
          Sample.oneSet s := by
  have hmem : 1 ∈ (Correlation.ofExpressions Sample.twoSets
      Sample.oneSet {}).difference.sharedRoots.map (·.reference) := by
    rw [Sample.evaluated_roots]
    decide
  obtain ⟨s, hs, hreference⟩ := List.mem_map.1 hmem
  exact ⟨s, hs, hreference, (shared_subtrees_outermost Sample.twoSets Sample.oneSet {}
    Sample.collisionFree).1 s hs⟩

end Difference
end Concordance
