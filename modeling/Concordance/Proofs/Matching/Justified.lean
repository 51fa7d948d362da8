import Concordance.Proofs.ExactPairs
import Concordance.Proofs.Matching.Contention

/-!
# Reasons for approximate pairs

An approximate pair has a reason that can be seen in the mapping a run ends with:
it is the pair of the roots, it is a pair of definition sets below them or of
their only children, or enough children of its reference node have their partners
below its comparison node. The last of these was counted in the middle of the
overlap pass, but further pairs only add to the count. Leaves are never in such a
pair, because leaves of one kind have the same signature.
-/
namespace Concordance

/-- Number of children of a reference node whose partners are children of a comparison node. -/
def Mapping.commonChildren (m : Mapping) (reference comparison : Expression) (r c : Nat) : Nat :=
  (reference.children r).countP fun x => ∃ y ∈ comparison.children c, m.comparisonFor? x = some y

namespace Matching

open Expression

/-- Why two nodes may be an approximate pair of a mapping. -/
inductive Justified (m : Mapping) (reference comparison : Expression) (config : Config) :
    Nat → Nat → Prop
  | roots : Justified m reference comparison config reference.root comparison.root
  | sets {r c : Nat} (hsets : TopSets reference comparison r c) :
      Justified m reference comparison config r c
  | connected {a b r c : Nat} (hrequested : config.connectSpine = true)
      (hsets : TopSets reference comparison a b) (hpair : m.comparisonFor? a = some b)
      (hr : reference.children a = [r]) (hc : comparison.children b = [c]) :
      Justified m reference comparison config r c
  | overlap {r c : Nat} (hrequested : config.bestEffort = true)
      (hcommon : config.minOverlap ≤ m.commonChildren reference comparison r c) :
      Justified m reference comparison config r c

variable {p : Problem} {m m' : Mapping} {s : State} {r c a b x y : Nat}

theorem commonChildren_le_of_extends (h : m'.Extends m) (reference comparison : Expression)
    (r c : Nat) :
    m.commonChildren reference comparison r c ≤ m'.commonChildren reference comparison r c := by
  apply List.countP_mono_left
  intro x _ hx
  obtain ⟨y, hy, hxy⟩ := of_decide_eq_true hx
  exact decide_eq_true ⟨y, hy, h.comparisonFor? hxy⟩

/-- The overlap of a node with a candidate is the number of their common children. -/
theorem count_overlaps (hp : p.Own) (h : Candidate p m r c) :
    (overlaps p m r).count c = m.commonChildren p.reference p.comparison r c := by
  have hfits : (!m.hasComparison c && p.kindsAgree r c &&
      p.comparisonLayout.depth c == p.referenceLayout.depth r) = true := by
    rw [Mapping.hasComparison_eq_false_iff.2 h.unmatched, Problem.kindsAgree, h.kind,
      hp.comparisonLayout, hp.referenceLayout, Layout.depth_eq h.comparison,
      Layout.depth_eq h.reference, h.depth]
    simp
  rw [overlaps_eq, List.count_filterMap, Mapping.commonChildren]
  apply List.countP_congr
  intro x _
  rw [beq_iff_eq, decide_eq_true_eq, offer?, Option.filter_eq_some_iff, hfits, and_iff_left rfl,
    Option.bind_eq_some_iff]
  simp only [parent?_eq_some_iff, and_comm]

theorem Justified.of_extends (h : m'.Extends m)
    (hrc : Justified m p.reference p.comparison p.config r c) :
    Justified m' p.reference p.comparison p.config r c := by
  cases hrc with
  | roots => exact .roots
  | sets hsets => exact .sets hsets
  | connected hrequested hsets hpair hr hc =>
    exact .connected hrequested hsets (h.comparisonFor? hpair) hr hc
  | overlap hrequested hcommon =>
    exact .overlap hrequested (hcommon.trans (commonChildren_le_of_extends h _ _ r c))

/-- All approximate pairs of a mapping have a reason. -/
def Reasoned (p : Problem) (m : Mapping) : Prop :=
  ∀ r c, m.correspondence? r = some ⟨c, .approximate⟩ →
    Justified m p.reference p.comparison p.config r c

namespace Reasoned

theorem insert? (hm : Reasoned p m) (hrc : Justified m p.reference p.comparison p.config r c)
    (hinsert : m.insert? r c .approximate = some m') : Reasoned p m' := by
  have hextends := Mapping.Extends.of_insert? hinsert
  intro x y hxy
  rw [Mapping.correspondence?_insert? hinsert] at hxy
  split at hxy
  · rename_i hx
    obtain ⟨rfl, -⟩ := Correspondence.mk.inj (Option.some.inj hxy)
    rw [hx]
    exact hrc.of_extends hextends
  · exact (hm x y hxy).of_extends hextends

theorem pair (hs : Reasoned p s.mapping)
    (hrc : Justified s.mapping p.reference p.comparison p.config r c) :
    Reasoned p (s.pair p r c .approximate).mapping := by
  rcases State.pair_cases p s r c .approximate with hsame | hpair
  · rwa [hsame]
  · exact hs.insert? hrc (State.pair?_eq_some hpair).2.1

end Reasoned

theorem minOverlap_le_of_overlapPartner? (hp : p.Own) (h : overlapPartner? p m r = some c) :
    p.config.minOverlap ≤ m.commonChildren p.reference p.comparison r c := by
  have hcandidate := (overlapPartner?_eq_some hp h).2
  unfold overlapPartner? at h
  split at h
  · cases h
  · obtain ⟨candidate, hfound, rfl⟩ := Option.map_eq_some_iff.1 h
    obtain ⟨-, hcount, hmin⟩ := mem_rankedCandidates_iff.1 (List.mem_of_find?_eq_some hfound)
    rwa [hcount, count_overlaps hp hcandidate] at hmin

theorem Levelled.mapping_pairByOverlap (hp : p.Own) (hs : Levelled p s.mapping) (r : Nat) :
    (pairByOverlap p s r).mapping = overlapStep p s.mapping r := by
  have hfinishing : Finishing p s.mapping s.mapping := ⟨hs.fair, hs.spent, .refl _⟩
  exact Matching.mapping_pairByOverlap hp hfinishing

theorem reasoned_pairByOverlap (hp : p.Own) (hbest : p.config.bestEffort = true)
    (hs : Levelled p s.mapping) (hreasoned : Reasoned p s.mapping) :
    Reasoned p (pairByOverlap p s r).mapping := by
  rw [hs.mapping_pairByOverlap hp]
  rcases overlapStep_cases hp hs.fair.valid r with ⟨-, hnone⟩ | ⟨c, hc, -, hinsert⟩
  · rwa [hnone]
  · exact hreasoned.insert? (.overlap hbest (minOverlap_le_of_overlapPartner? hp hc)) hinsert

theorem reasoned_afterOverlap (hp : p.Sound) : Reasoned p (afterOverlap p).mapping := by
  have hexact : Reasoned p (afterSignatures p).mapping := by
    intro r c hrc
    have := ((settled_afterSignatures hp).1.exact.pairs r c _ hrc).1
    cases this
  unfold afterOverlap
  split
  · rename_i hbest
    refine (List.foldlRecOn
      (motive := fun t : State => Levelled p t.mapping ∧ Reasoned p t.mapping)
      p.reference.postOrder _ ⟨levelled_afterSignatures hp, hexact⟩ fun t ht r _ => ?_).2
    exact ⟨levelled_pairByOverlap hp.toOwn ht.1, reasoned_pairByOverlap hp.toOwn hbest ht.1 ht.2⟩
  · exact hexact

/-- Definition sets whose children the spine pass pairs are both below the roots. -/
theorem Levelled.topSets_of_belowSets (hm : Levelled p m) (h : BelowSets p m a b x y) :
    TopSets p.reference p.comparison a b := by
  obtain ⟨kind, hset, hkind⟩ := h.set
  have hb := (lt_size_of_mem_children h.comparison).2
  have hdepth := (hm.approximate a b (hm.correspondence?_of_belowSets h)).2
  rw [depth_of_mem_children h.top, depth_root] at hdepth
  exact ⟨⟨kind, hset, hkind, (hm.fair.kinds a b h.partners) ▸ hkind⟩, h.top,
    (mem_children_root_iff hb).2 hdepth.symm⟩

theorem Levelled.justified_of_belowSets (hm : Levelled p m) (h : BelowSets p m a b x y) :
    Justified m p.reference p.comparison p.config x y := by
  have hsets := hm.topSets_of_belowSets h
  obtain ⟨kind, hset, hkind, hkind'⟩ := hsets.kinds
  obtain ⟨x', hx⟩ := exists_only_child hkind hset
  obtain ⟨y', hy⟩ := exists_only_child hkind' hset
  have hxx := h.reference
  have hyy := h.comparison
  rw [hx, List.mem_singleton] at hxx
  rw [hy, List.mem_singleton] at hyy
  exact .connected h.requested hsets h.partners (hxx ▸ hx) (hyy ▸ hy)

theorem reasoned_pairRoots (hs : Reasoned p s.mapping) : Reasoned p (pairRoots p s).mapping := by
  rcases pairRoots_cases p s with hsame | hpair
  · rwa [hsame]
  · exact hs.insert? .roots (State.pair?_eq_some hpair).2.1

theorem reasoned_run (hp : p.Sound) : Reasoned p (run p).mapping := by
  have hlevelled := levelled_afterOverlap hp
  rw [mapping_run hp.toOwn]
  refine (spinePairs_induction (P := fun t => Levelled p t.mapping ∧ Reasoned p t.mapping)
    ?_ ?_ ⟨levelled_pairRoots hlevelled, reasoned_pairRoots (reasoned_afterOverlap hp)⟩).2
  · intro t x y ht hsets
    exact ⟨ht.1.pair hsets.depth_eq, ht.2.pair (.sets hsets)⟩
  · intro t a b x y ht hbelow
    exact ⟨ht.1.pair (ht.1.depth_of_belowSets hbelow),
      ht.2.pair (ht.1.justified_of_belowSets hbelow)⟩

theorem alike_of_leaves (hp : p.Own) {kind : Kind} (hr : p.reference.kind? r = some kind)
    (hc : p.comparison.kind? c = some kind) (hleaf : kind.isLeaf = true) : p.Alike r c := by
  refine hp.alike_of_get?_eq (lt_size_of_kind? hr) ?_
  rw [hp.referenceTable, hp.comparisonTable, SignatureTable.get?_ofExpression hr,
    SignatureTable.get?_ofExpression hc, children_eq_nil hr hleaf, children_eq_nil hc hleaf,
    List.map_nil, List.map_nil]

/-- For all expressions and settings, without collisions: the two nodes of an approximate pair are
interior nodes of one kind, at the same depth and with different signatures, and the pair has one of
four reasons in the mapping itself. -/
theorem approximate_pairs_justified (reference comparison : Expression) (config : Config)
    (hfree : CollisionFree reference comparison) (r c : Nat)
    (hpair : (Mapping.ofExpressions reference comparison config).correspondence? r =
      some ⟨c, .approximate⟩) :
    (∃ kind : Kind, reference.kind? r = some kind ∧ comparison.kind? c = some kind ∧
      kind.isLeaf = false) ∧
    reference.depth r = comparison.depth c ∧
    (SignatureTable.ofExpression reference).get? r ≠
      (SignatureTable.ofExpression comparison).get? c ∧
    Justified (Mapping.ofExpressions reference comparison config) reference comparison config
      r c := by
  have hp := Problem.sound_ofExpressions config hfree
  have hm := levelled_run hp
  have hmatched := Mapping.comparisonFor?_eq_some_iff.2 ⟨_, hpair⟩
  have hr : r < reference.size := (hm.fair.valid.lt_sizes hmatched).1
  obtain ⟨hunlike, hdepth⟩ := hm.approximate r c hpair
  obtain ⟨kind, hkind⟩ := exists_kind? hr
  have hkind' : comparison.kind? c = some kind := (hm.fair.kinds r c hmatched).symm.trans hkind
  refine ⟨⟨kind, hkind, hkind', ?_⟩, hdepth, fun hequal => ?_, reasoned_run hp r c hpair⟩
  · by_contra hleaf
    exact hunlike (alike_of_leaves hp.toOwn hkind hkind' (by simpa using hleaf))
  · exact hunlike (hp.alike_of_get?_eq hr hequal)

/-- Two roles below a conjunction. -/
def Sample.filled : Expression where
  nodes := .ofList [⟨.concept 1, []⟩, ⟨.existential 7, [0]⟩, ⟨.concept 2, []⟩,
    ⟨.existential 8, [2]⟩, ⟨.conjunction, [1, 3]⟩, ⟨.sufficientSet, [4]⟩, ⟨.root, [5]⟩]
  root := 6
  parents := #[some 1, some 4, some 3, some 4, some 5, some 6, none]
  valid := by decide +kernel

/-- The same with another concept below the second role. -/
def Sample.refilled : Expression where
  nodes := .ofList [⟨.concept 1, []⟩, ⟨.existential 7, [0]⟩, ⟨.concept 3, []⟩,
    ⟨.existential 8, [2]⟩, ⟨.conjunction, [1, 3]⟩, ⟨.sufficientSet, [4]⟩, ⟨.root, [5]⟩]
  root := 6
  parents := #[some 1, some 4, some 3, some 4, some 5, some 6, none]
  valid := by decide +kernel

/-- What evaluation says about the two expressions: the conjunctions are a pair, and the second
roles are unmatched. -/
theorem Sample.evaluated_refilled : CollisionFree filled refilled ∧
    (Mapping.ofExpressions filled refilled {}).correspondence? 4 = some ⟨4, .approximate⟩ ∧
    (Mapping.ofExpressions filled refilled {}).comparisonFor? 3 = none ∧
    (Mapping.ofExpressions filled refilled {}).referenceFor? 3 = none := by
  decide +kernel

/-- The two conjunctions have the first role in common. -/
theorem approximate_pairs_justified_refilled :
    Justified (Mapping.ofExpressions Sample.filled Sample.refilled {}) Sample.filled
      Sample.refilled {} 4 4 :=
  (approximate_pairs_justified Sample.filled Sample.refilled {} Sample.evaluated_refilled.1 4 4
    Sample.evaluated_refilled.2.1).2.2.2

end Matching
end Concordance
