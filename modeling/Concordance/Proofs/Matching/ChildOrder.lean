import Concordance.Proofs.Matching.Contention

/-!
# The stored order of children

Twins go in step through the exact passes, and the spine pass looks at children by
number and at only children, so it makes the same pairs again. What is left is the
overlap pass: as far as it meets contenders in the same order, the order in which
children are stored leaves no trace in the mapping. Where it meets them in another
order it can give a partner to another node.
-/
namespace Concordance

open Expression

/-- A definition set has one child, of which there is one order. -/
theorem Expression.Reordered.children_of_isSet {e e' : Expression} (h : e.Reordered e') {n : Nat}
    {kind : Kind} (hkind : e.kind? n = some kind) (hset : kind.isSet = true) :
    e'.children n = e.children n := by
  have hadmits := admits_children hkind
  have hone : (e.children n).length = 1 := by
    cases kind <;> simp [Kind.isSet, Kind.arity, Arity.admits] at hset hadmits <;> exact hadmits
  obtain ⟨child, hchild⟩ := List.length_eq_one_iff.1 hone
  have hperm := h.children n
  rw [hchild] at hperm ⊢
  exact List.perm_singleton.1 hperm

namespace Matching

variable {p p' : Problem} {start m m' : Mapping} {s s' : State} {r c : Nat}

/-- States with the same pairs behind the exact passes. -/
structure Abreast (p : Problem) (start : Mapping) (s s' : State) : Prop where
  mapping : s'.mapping = s.mapping
  finishing : Finishing p start s.mapping

namespace Abreast

variable (hp : Twins p p')

include hp

theorem pair (hs : Abreast p start s s') (hr : r < p.reference.size) (hc : c < p.comparison.size) :
    Abreast p start (s.pair p r c .approximate) (s'.pair p' r c .approximate) := by
  refine ⟨?_, hs.finishing.pair r c⟩
  have hadmits : p'.admits s'.mapping r c = p.admits s.mapping r c := by
    rw [hs.mapping, hp.admits hs.finishing.fair.valid hr hc]
  unfold State.pair State.pair?
  rw [hadmits, hs.mapping]
  split
  · cases s.mapping.insert? r c .approximate with
    | none => exact hs.mapping
    | some m => rfl
  · exact hs.mapping

theorem pairRoots (hs : Abreast p start s s') :
    Abreast p start (pairRoots p s) (pairRoots p' s') := by
  unfold Matching.pairRoots
  rw [hs.mapping, hp.reference.root, hp.comparison.root]
  split
  · exact hs
  · exact hs.pair hp (root_lt_size _) (root_lt_size _)

theorem pairSets (hs : Abreast p start s s') (kind : Kind) :
    Abreast p start (pairSets p s kind) (pairSets p' s' kind) := by
  have hreference : unmatchedReferenceSets p' s'.mapping kind =
      unmatchedReferenceSets p s.mapping kind := by
    unfold unmatchedReferenceSets
    rw [hs.mapping, hp.reference.root, funext hp.reference.kind?]
    exact ascending_eq_of_perm ((hp.reference.children _).filter _)
  have hcomparison : unmatchedComparisonSets p' s'.mapping kind =
      unmatchedComparisonSets p s.mapping kind := by
    unfold unmatchedComparisonSets
    rw [hs.mapping, hp.comparison.root, funext hp.comparison.kind?]
    exact ascending_eq_of_perm ((hp.comparison.children _).filter _)
  unfold Matching.pairSets
  rw [hreference, hcomparison]
  refine List.foldl_rel hs fun sets hsets t t' ht => ?_
  obtain ⟨hr, hc⟩ := List.of_mem_zip (a := sets.1) (b := sets.2) hsets
  rw [unmatchedReferenceSets, mem_ascending, List.mem_filter] at hr
  rw [unmatchedComparisonSets, mem_ascending, List.mem_filter] at hc
  exact ht.pair hp (lt_size_of_mem_children hr.1).1 (lt_size_of_mem_children hc.1).1

theorem connectSet (hs : Abreast p start s s') (hr : r ∈ referenceSets p) :
    Abreast p start (connectSet p s r) (connectSet p' s' r) := by
  rw [referenceSets, mem_ascending, List.mem_filter] at hr
  unfold Matching.connectSet
  rw [hs.mapping]
  cases hc : s.mapping.comparisonFor? r with
  | none => exact hs
  | some c =>
    have hkinds := hs.finishing.fair.kinds r c hc
    cases hkind : p.reference.kind? r with
    | none => simp [hkind] at hr
    | some kind =>
      have hset : kind.isSet = true := by simpa [hkind] using hr.2
      dsimp only
      rw [hp.reference.children_of_isSet hkind hset,
        hp.comparison.children_of_isSet (hkinds ▸ hkind) hset]
      split
      · rename_i child partner hchild hpartner
        split
        · exact hs
        · exact hs.pair hp (lt_size_of_mem_children (List.mem_of_head? hchild)).1
            (lt_size_of_mem_children (List.mem_of_head? hpartner)).1
      · exact hs

theorem spinePairs (hs : Abreast p start s s') (hconfig : p'.config = p.config) :
    Abreast p start (spinePairs p s) (spinePairs p' s') := by
  have hsets : referenceSets p' = referenceSets p := by
    unfold referenceSets
    rw [hp.reference.root, funext hp.reference.kind?]
    exact ascending_eq_of_perm ((hp.reference.children _).filter _)
  have hpaired : Abreast p start
      ([Kind.necessarySet, .sufficientSet, .propertySet].foldl (Matching.pairSets p)
        (Matching.pairRoots p s))
      ([Kind.necessarySet, .sufficientSet, .propertySet].foldl (Matching.pairSets p')
        (Matching.pairRoots p' s')) :=
    List.foldl_rel (hs.pairRoots hp) fun kind _ t t' ht => ht.pairSets hp kind
  unfold Matching.spinePairs
  dsimp only
  rw [hconfig, hsets]
  split
  · exact List.foldl_rel hpaired fun r hr t t' ht => ht.connectSet hp hr
  · exact hpaired

end Abreast

namespace Twins

variable (hp : Twins p p') (hconfig : p'.config = p.config)

include hp

/-- Twins have the same exact pairs, because they are in step up to the last of these. -/
theorem exact_iff (r c : Nat) :
    (run p').mapping.correspondence? r = some ⟨c, .exact⟩ ↔
      (run p).mapping.correspondence? r = some ⟨c, .exact⟩ := by
  rw [(addsApproximate_run hp.guarded'.toOwn).exact_iff,
    (addsApproximate_run hp.guarded.toOwn).exact_iff, (InStep.afterSignatures hp).mapping]

include hconfig

theorem mapping_afterOverlap
    (hcontenders : p.config.bestEffort = true → ∀ kind depth, kind.isLeaf = false →
      (run p).mapping.contenders p'.reference kind depth =
        (run p).mapping.contenders p.reference kind depth) :
    (afterOverlap p').mapping = (afterOverlap p).mapping := by
  have hown := hp.guarded.toOwn
  have hown' := hp.guarded'.toOwn
  have hstart := finishing_afterSignatures hown
  have hsame := (InStep.afterSignatures hp).mapping
  unfold afterOverlap
  rw [hconfig]
  split
  · rename_i hbest
    have hopen : ∀ r, (afterSignatures p).mapping.comparisonFor? r = none →
        (run p).mapping.quality? r ≠ some .exact := by
      intro r hr hquality
      obtain ⟨⟨c, q⟩, hfound, rfl⟩ := Option.map_eq_some_iff.1 hquality
      have hexact := (addsApproximate_run hown).exact_iff.1 hfound
      rw [Mapping.comparisonFor?_eq_some_iff.2 ⟨_, hexact⟩] at hr
      simp at hr
    have hstart' := finishing_afterSignatures hown'
    show (overlapPass p' _).mapping = (overlapPass p _).mapping
    rw [mapping_overlapPass hown hstart, mapping_overlapPass hown' hstart', hsame,
      hp.foldl_overlapStep hopen (hcontenders hbest) hconfig hstart.fair.valid]
  · exact hsame

theorem mapping_run
    (hcontenders : p.config.bestEffort = true → ∀ kind depth, kind.isLeaf = false →
      (run p).mapping.contenders p'.reference kind depth =
        (run p).mapping.contenders p.reference kind depth) :
    (run p').mapping = (run p).mapping := by
  have hown := hp.guarded.toOwn
  have habreast : Abreast p (afterSignatures p).mapping (afterOverlap p) (afterOverlap p') :=
    ⟨hp.mapping_afterOverlap hconfig hcontenders, finishing_afterOverlap hown⟩
  rw [Matching.mapping_run hown, Matching.mapping_run hp.guarded'.toOwn]
  exact (habreast.spinePairs hp hconfig).mapping

end Twins

/-- For all expressions and their reorderings the exact pairs are the same. All pairs are the same,
with the same qualities, unless best effort is asked for and some contenders, inner nodes of one
kind and depth without an exact partner, follow each other in another order in the two post-order
walks of the reference expressions. -/
theorem child_order_only_ranks_contenders
    {reference reference' comparison comparison' : Expression} (config : Config)
    (hr : reference.Reordered reference') (hc : comparison.Reordered comparison') :
    (∀ r c, (Mapping.ofExpressions reference' comparison' config).correspondence? r =
        some ⟨c, .exact⟩ ↔
      (Mapping.ofExpressions reference comparison config).correspondence? r = some ⟨c, .exact⟩) ∧
    ((config.bestEffort = true → ∀ kind depth, kind.isLeaf = false →
        (Mapping.ofExpressions reference comparison config).contenders reference' kind depth =
          (Mapping.ofExpressions reference comparison config).contenders reference kind depth) →
      Mapping.ofExpressions reference' comparison' config =
        Mapping.ofExpressions reference comparison config) := by
  have hp := twins_ofExpressions config hr hc
  exact ⟨hp.exact_iff, hp.mapping_run rfl⟩

/-- Two conjunctions that contend for one partner, the one with the smaller number first. -/
def Sample.contenders : Expression where
  nodes := .ofList [⟨.concept 1, []⟩, ⟨.concept 2, []⟩, ⟨.conjunction, [0]⟩, ⟨.conjunction, [1]⟩,
    ⟨.root, [2, 3]⟩]
  root := 4
  parents := #[some 2, some 3, some 4, some 4, none]
  valid := by decide +kernel

def Sample.swappedContenders : Expression where
  nodes := .ofList [⟨.concept 1, []⟩, ⟨.concept 2, []⟩, ⟨.conjunction, [0]⟩, ⟨.conjunction, [1]⟩,
    ⟨.root, [3, 2]⟩]
  root := 4
  parents := #[some 2, some 3, some 4, some 4, none]
  valid := by decide +kernel

/-- Both concepts in one conjunction. -/
def Sample.contended : Expression where
  nodes := .ofList [⟨.concept 1, []⟩, ⟨.concept 2, []⟩, ⟨.conjunction, [0, 1]⟩, ⟨.root, [2]⟩]
  root := 3
  parents := #[some 2, some 2, some 3, none]
  valid := by decide +kernel

def Sample.swappedContended : Expression where
  nodes := .ofList [⟨.concept 1, []⟩, ⟨.concept 2, []⟩, ⟨.conjunction, [1, 0]⟩, ⟨.root, [2]⟩]
  root := 3
  parents := #[some 2, some 2, some 3, none]
  valid := by decide +kernel

theorem Sample.reordered_contenders : contenders.Reordered swappedContenders :=
  .of_lt rfl (by decide +kernel)

theorem Sample.reordered_contended : contended.Reordered swappedContended :=
  .of_lt rfl (by decide +kernel)

/-- With the comparison reordered the contenders come up in the same order, and without best effort
their order is of no concern. -/
theorem child_order_only_ranks_contenders_swapped :
    Mapping.ofExpressions Sample.contenders Sample.swappedContended {} =
        Mapping.ofExpressions Sample.contenders Sample.contended {} ∧
      Mapping.ofExpressions Sample.swappedContenders Sample.swappedContended
          { bestEffort := false } =
        Mapping.ofExpressions Sample.contenders Sample.contended { bestEffort := false } :=
  ⟨(child_order_only_ranks_contenders {} (.refl _) Sample.reordered_contended).2
      fun _ _ _ _ => rfl,
    (child_order_only_ranks_contenders { bestEffort := false } Sample.reordered_contenders
      Sample.reordered_contended).2 fun h => absurd h (by decide)⟩

/-- With the reference reordered the other conjunction gets the partner. -/
theorem child_order_changes_mapping :
    Sample.contenders.Reordered Sample.swappedContenders ∧
      (Mapping.ofExpressions Sample.contenders Sample.contended {}).comparisonFor? 2 = some 2 ∧
      (Mapping.ofExpressions Sample.swappedContenders Sample.contended {}).comparisonFor? 2 =
        none ∧
      Mapping.ofExpressions Sample.swappedContenders Sample.contended {} ≠
        Mapping.ofExpressions Sample.contenders Sample.contended {} := by
  obtain ⟨hfirst, hsecond⟩ :
      (Mapping.ofExpressions Sample.contenders Sample.contended {}).comparisonFor? 2 = some 2 ∧
      (Mapping.ofExpressions Sample.swappedContenders Sample.contended {}).comparisonFor? 2 =
        none := by
    decide +kernel
  refine ⟨Sample.reordered_contenders, hfirst, hsecond, fun hsame => ?_⟩
  rw [hsame, hfirst] at hsecond
  simp at hsecond

end Matching
end Concordance
