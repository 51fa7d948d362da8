import Concordance.Proofs.Matching.Exhaustion
import Concordance.Proofs.Matching.Settings

/-!
# Approximate pairs

Once no two alike nodes are left over, propagation finds nothing more to pair,
and the remaining passes only add the approximate pairs they propose themselves.
Each of these has nodes of equal depth: candidates of an overlap are filtered by
depth, the roots and the definition sets below them are level, and so are the
children of two definition sets that are an approximate pair.
-/
namespace Concordance.Matching

open Expression

variable {p : Problem} {m m' : Mapping} {s s' : State} {r c : Nat}

/-- What holds of every mapping after the exact passes. -/
structure Levelled (p : Problem) (m : Mapping) : Prop where
  fair : Fair p m
  /-- Of two alike nodes at least one is in an exact pair. -/
  exhausted : ∀ r c, p.Alike r c → (∃ y, m.correspondence? r = some ⟨y, .exact⟩) ∨
    ∃ x, m.correspondence? x = some ⟨c, .exact⟩
  carried : ∀ r c, m.correspondence? r = some ⟨c, .exact⟩ → ChildrenPaired p m r c
  approximate : ∀ r c, m.correspondence? r = some ⟨c, .approximate⟩ →
    ¬ p.Alike r c ∧ p.reference.depth r = p.comparison.depth c

namespace Levelled

theorem exhausted_mapping (hm : Levelled p m) : Exhausted p m := by
  intro r c hmatch
  rcases hm.exhausted r c hmatch.alike with ⟨y, hy⟩ | ⟨x, hx⟩
  · have hr := hmatch.reference
    rw [Mapping.comparisonFor?_eq_some_iff.2 ⟨_, hy⟩] at hr
    simp at hr
  · have hc := (hm.fair.valid.agree x c).1 (Mapping.comparisonFor?_eq_some_iff.2 ⟨_, hx⟩)
    rw [hmatch.comparison] at hc
    simp at hc

theorem spent (hm : Levelled p m) : Spent p m :=
  fun r c hmatch => absurd hmatch (hm.exhausted_mapping r c)

theorem of_settled (hs : Settled p s) (hexhausted : Exhausted p s.mapping)
    (hfair : Fair p s.mapping) : Levelled p s.mapping where
  fair := hfair
  exhausted r c halike := by
    by_cases hr : s.mapping.comparisonFor? r = none
    · cases hc : s.mapping.referenceFor? c with
      | none => exact absurd ⟨halike, hr, hc⟩ (hexhausted r c)
      | some x => exact .inr ⟨x, hs.exact.correspondence? ((hs.exact.valid.agree x c).2 hc)⟩
    · obtain ⟨y, hy⟩ := Option.ne_none_iff_exists'.1 hr
      exact .inl ⟨y, hs.exact.correspondence? hy⟩
  carried r c h := hs.childrenPaired (Mapping.comparisonFor?_eq_some_iff.2 ⟨_, h⟩)
  approximate r c h := by
    have := (hs.exact.pairs r c _ h).1
    simp at this

/-- A new approximate pair of level nodes keeps all this. -/
theorem of_pair? (hs : Levelled p s.mapping) (hdepth : p.reference.depth r = p.comparison.depth c)
    (h : s.pair? p r c .approximate = some s') : Levelled p s'.mapping := by
  have hfair := hs.fair.grows (State.grows_pair? (by simp) h)
  obtain ⟨-, hinsert, -, -⟩ := State.pair?_eq_some h
  obtain ⟨hr, hc⟩ := Mapping.insert?_free hinsert
  have hextends := Mapping.Extends.of_insert? hinsert
  refine ⟨hfair, fun x y hxy => ?_, fun x y hxy => ?_, fun x y hxy => ?_⟩
  · exact (hs.exhausted x y hxy).imp (fun ⟨z, hz⟩ => ⟨z, hextends x _ hz⟩)
      fun ⟨z, hz⟩ => ⟨z, hextends z _ hz⟩
  · rw [Mapping.correspondence?_insert? hinsert] at hxy
    split at hxy
    · simp at hxy
    · exact (hs.carried x y hxy).of_extends hextends
  · rw [Mapping.correspondence?_insert? hinsert] at hxy
    split at hxy
    · rename_i hx
      obtain ⟨rfl, -⟩ := Correspondence.mk.inj (Option.some.inj hxy)
      rw [hx]
      exact ⟨fun halike => hs.exhausted_mapping r _ ⟨halike, hr, hc⟩, hdepth⟩
    · exact hs.approximate x y hxy

theorem pair (hs : Levelled p s.mapping) (hdepth : p.reference.depth r = p.comparison.depth c) :
    Levelled p (s.pair p r c .approximate).mapping := by
  rcases State.pair_cases p s r c .approximate with hsame | hpair
  · rwa [hsame]
  · exact hs.of_pair? hdepth hpair

end Levelled

theorem mem_rankedCandidates_iff {candidate : Nat × Nat} :
    candidate ∈ rankedCandidates p m r ↔ candidate.1 ∈ overlaps p m r ∧
      candidate.2 = (overlaps p m r).count candidate.1 ∧ p.config.minOverlap ≤ candidate.2 := by
  rw [rankedCandidates, mem_sortBy, List.mem_filter, List.mem_map, decide_eq_true_eq]
  constructor
  · rintro ⟨⟨c, hc, rfl⟩, hmin⟩
    exact ⟨List.mem_eraseDups.1 hc, rfl, hmin⟩
  · rintro ⟨hc, hcount, hmin⟩
    exact ⟨⟨candidate.1, List.mem_eraseDups.2 hc, Prod.ext rfl hcount.symm⟩, hmin⟩

theorem mem_rankedCandidates {candidate : Nat × Nat} (h : candidate ∈ rankedCandidates p m r) :
    candidate.1 ∈ overlaps p m r :=
  (mem_rankedCandidates_iff.1 h).1

/-- What a child stands for among the overlaps of a node: the parent of its partner, if that can
be the partner of the node. -/
def offer? (p : Problem) (m : Mapping) (r child : Nat) : Option Nat :=
  ((m.comparisonFor? child).bind p.comparison.parent?).filter fun candidate =>
    !m.hasComparison candidate && p.kindsAgree r candidate
      && p.comparisonLayout.depth candidate == p.referenceLayout.depth r

theorem overlaps_eq (p : Problem) (m : Mapping) (r : Nat) :
    overlaps p m r = (p.reference.children r).filterMap (offer? p m r) := by
  apply List.filterMap_congr
  intro child _
  unfold offer?
  cases m.comparisonFor? child with
  | none => rfl
  | some partner =>
    simp only [Option.bind_eq_bind, Option.bind_some]
    cases p.comparison.parent? partner with
    | none => rfl
    | some candidate => rfl

theorem lt_size_of_offered {child candidate : Nat}
    (h : (m.comparisonFor? child).bind p.comparison.parent? = some candidate) :
    candidate < p.comparison.size := by
  obtain ⟨partner, -, hparent⟩ := Option.bind_eq_some_iff.1 h
  exact (lt_size_of_mem_children (parent?_eq_some_iff.1 hparent)).2

/-- A candidate is unmatched and has the kind and depth of the node. -/
structure Candidate (p : Problem) (m : Mapping) (r c : Nat) : Prop where
  reference : r < p.reference.size
  comparison : c < p.comparison.size
  unmatched : m.referenceFor? c = none
  kind : p.reference.kind? r = p.comparison.kind? c
  depth : p.reference.depth r = p.comparison.depth c

theorem candidate_of_mem_overlaps (hp : p.Own) (h : c ∈ overlaps p m r) : Candidate p m r c := by
  rw [overlaps_eq, List.mem_filterMap] at h
  obtain ⟨child, hchild, h⟩ := h
  rw [offer?, Option.filter_eq_some_iff, Bool.and_eq_true, Bool.and_eq_true, Bool.not_eq_true',
    Mapping.hasComparison_eq_false_iff, Problem.kindsAgree, beq_iff_eq, beq_iff_eq] at h
  obtain ⟨hoffered, ⟨hfree, hkind⟩, hdepth⟩ := h
  have hr := (lt_size_of_mem_children hchild).2
  have hc := lt_size_of_offered hoffered
  rw [hp.comparisonLayout, hp.referenceLayout, Layout.depth_eq hc, Layout.depth_eq hr] at hdepth
  exact ⟨hr, hc, hfree, hkind, hdepth.symm⟩

theorem levelled_pairByOverlap (hp : p.Own) (hs : Levelled p s.mapping) :
    Levelled p (pairByOverlap p s r).mapping := by
  rcases pairByOverlap_cases p s r with hsame | ⟨c, overlap, s', hcandidate, hpair, hnext⟩
  · rwa [hsame]
  · have hdepth := (candidate_of_mem_overlaps hp (mem_rankedCandidates hcandidate)).depth
    have hlevel := hs.of_pair? hdepth hpair
    rw [hnext, mapping_settle_of_spent (s := s'.note _) hp hlevel.spent]
    exact hlevel

/-- The roots are a pair after the first step of the spine pass, since nothing else is of their
kind and nothing lies above them. -/
theorem comparisonFor?_pairRoots (hs : Fair p s.mapping) :
    (pairRoots p s).mapping.comparisonFor? p.reference.root = some p.comparison.root := by
  have hroot : p.reference.kind? p.reference.root = some .root := kind?_eq_root_iff.2 rfl
  have hroot' : p.comparison.kind? p.comparison.root = some .root := kind?_eq_root_iff.2 rfl
  unfold pairRoots
  split
  · rename_i hmatched
    obtain ⟨c, hc⟩ := Mapping.hasReference_iff.1 hmatched
    have hkind := hs.kinds _ _ hc
    rw [hroot] at hkind
    rw [hc, kind?_eq_root_iff.1 hkind.symm]
  · rename_i hfree
    rw [Bool.not_eq_true, Mapping.hasReference_eq_false_iff] at hfree
    have hfree' : s.mapping.referenceFor? p.comparison.root = none := by
      cases hx : s.mapping.referenceFor? p.comparison.root with
      | none => rfl
      | some x =>
        have hpair := (hs.valid.agree _ _).2 hx
        have hkind := hs.kinds _ _ hpair
        rw [hroot'] at hkind
        rw [kind?_eq_root_iff.1 hkind, hfree] at hpair
        simp at hpair
    obtain ⟨m, hm⟩ := hs.valid.exists_insert? (root_lt_size _) (root_lt_size _) hfree hfree'
      .approximate
    have hadmits : p.admits s.mapping p.reference.root p.comparison.root = true := by
      simp [Problem.admits, Problem.kindsAgree, Problem.inverts, hroot, hroot']
    obtain ⟨s', hpair⟩ := State.exists_pair? hadmits hm
    obtain ⟨-, hinsert, -, -⟩ := State.pair?_eq_some hpair
    rw [State.pair, hpair, Option.getD_some, Mapping.comparisonFor?_insert? hinsert, if_pos rfl]

theorem levelled_pairRoots (hs : Levelled p s.mapping) : Levelled p (pairRoots p s).mapping := by
  rcases pairRoots_cases p s with hsame | hpair
  · rwa [hsame]
  · exact hs.of_pair? (by rw [depth_root, depth_root]) hpair

theorem TopSets.depth_eq {x y : Nat} (h : TopSets p.reference p.comparison x y) :
    p.reference.depth x = p.comparison.depth y := by
  rw [depth_of_mem_children h.reference, depth_of_mem_children h.comparison, depth_root, depth_root]

namespace Levelled

variable {a b x y : Nat}

/-- Two partners whose children are still to be paired are an approximate pair: below an exact pair
all children are paired already. -/
theorem correspondence?_of_belowSets (hm : Levelled p m) (h : BelowSets p m a b x y) :
    m.correspondence? a = some ⟨b, .approximate⟩ := by
  obtain ⟨q, hq⟩ := Mapping.comparisonFor?_eq_some_iff.1 h.partners
  cases q with
  | approximate => exact hq
  | exact =>
    obtain ⟨z, -, hz⟩ := (hm.carried a b hq).reference x h.reference
    have hfree := h.unmatched
    rw [Mapping.comparisonFor?_eq_some_iff.2 ⟨_, hz⟩] at hfree
    simp at hfree

theorem depth_of_belowSets (hm : Levelled p m) (h : BelowSets p m a b x y) :
    p.reference.depth x = p.comparison.depth y := by
  rw [depth_of_mem_children h.reference, depth_of_mem_children h.comparison,
    (hm.approximate a b (hm.correspondence?_of_belowSets h)).2]

end Levelled

/-- Definition sets below the roots are level, and so are the children of two of them. -/
theorem levelled_spinePairs (hs : Levelled p s.mapping) : Levelled p (spinePairs p s).mapping :=
  spinePairs_induction (P := fun t => Levelled p t.mapping)
    (fun _ _ _ ht hsets => ht.pair hsets.depth_eq)
    (fun _ _ _ _ _ ht hbelow => ht.pair (ht.depth_of_belowSets hbelow)) (levelled_pairRoots hs)

theorem comparisonFor?_root_run (hp : p.Own) :
    (run p).mapping.comparisonFor? p.reference.root = some p.comparison.root := by
  have hfair : Fair p (afterOverlap p).mapping :=
    (Fair.empty p).grows ((grows_afterSignatures hp).trans (grows_afterOverlap hp))
  have hroots := comparisonFor?_pairRoots hfair
  exact (grows_spinePass_of_pairRoots hp _).extension.comparisonFor? hroots

theorem levelled_afterSignatures (hp : p.Sound) : Levelled p (afterSignatures p).mapping := by
  obtain ⟨hsettled, hexhausted⟩ := settled_afterSignatures hp
  exact .of_settled hsettled hexhausted ((Fair.empty p).grows (grows_afterSignatures hp.toOwn))

theorem levelled_afterOverlap (hp : p.Sound) : Levelled p (afterOverlap p).mapping := by
  have hexact := levelled_afterSignatures hp
  unfold afterOverlap
  split
  · exact List.foldlRecOn (motive := fun t : State => Levelled p t.mapping) p.reference.postOrder _
      hexact fun t ht r _ => levelled_pairByOverlap hp.toOwn ht
  · exact hexact

/-- Without collisions the mapping of a run exhausts alike nodes, its exact pairs carry their
children and its approximate pairs are level. -/
theorem levelled_run (hp : p.Sound) : Levelled p (run p).mapping := by
  rw [mapping_run hp.toOwn]
  exact levelled_spinePairs (levelled_afterOverlap hp)

end Concordance.Matching
