import Concordance.Proofs.Account
import Concordance.Proofs.Matching.Spine

/-!
# Reports below reports

The walk of a difference does not go on below a subtree that it reports. It can
still come to a node inside of it from the other side: through the parent of the
node's partner. Then the node and its partner are a pair whose parents are no
pair. Such detached pairs come from the overlap pass only, and an exact pair has
nothing below it to report, so without that pass all reported subtrees are
maximal.
-/
namespace Concordance

open Expression Matching

namespace Difference

open Merged

/-- The reported subtrees of a side are maximal: none lies inside of another one. -/
def Maximal (d : Difference) (side : Side) (e : Expression) : Prop :=
  ∀ outer ∈ d.oneSided side, ∀ inner ∈ d.oneSided side,
    e.isAncestor outer.origin inner.origin = false

/-- Between two nodes of a side there is a detached pair: its node of the side lies below the outer
one, and is the inner one or lies above it. -/
def DetachedBetween (m : Mapping) (reference comparison : Expression) (side : Side)
    (outer inner : Nat) (q : Quality) : Prop :=
  ∃ r c, m.correspondence? r = some ⟨c, q⟩ ∧ ¬ m.Attached reference comparison r c ∧
    (side.pick reference comparison).isAncestor outer (side.pick r c) = true ∧
    (side.pick reference comparison).InSubtree (side.pick r c) inner

theorem exists_of_mem_deletionOrigins {d : Difference} {n : Nat} (h : n ∈ d.deletionOrigins) :
    ∃ e ∈ d.oneSided .reference, e.origin = n :=
  List.mem_map.1 h

variable {p : Problem} {m : Mapping} {side side' : Side} {n outer r c a b : Nat} {q : Quality}
  {e e' : OneSided}

theorem pick_mem_children (hr : r ∈ p.reference.children a) (hc : c ∈ p.comparison.children b)
    (side : Side) : side.pick r c ∈ (p.tree side).children (side.pick a b) := by
  cases side with
  | reference => exact hr
  | comparison => exact hc

theorem root_eq_pick (side : Side) :
    (p.tree side).root = side.pick p.reference.root p.comparison.root := by
  cases side <;> rfl

section Fair

variable (hm : Fair p m)

include hm

theorem Reached.lt_size (h : Reached p m side n) : n < (p.tree side).size := by
  obtain ⟨k, -, hplace⟩ := h
  exact hplace.lt_size (i := p.input m) hm.valid

/-- The walk comes to both nodes of a pair or to none of them. -/
theorem reached_pick (hrc : m.correspondence? r = some ⟨c, q⟩)
    (h : Reached p m side (side.pick r c)) (side' : Side) :
    Reached p m side' (side'.pick r c) := by
  obtain ⟨k, hk, hplace⟩ := h
  have hpair := Input.origin_of_pair (i := p.input m) hm.valid hrc
  refine ⟨k, hk, ?_⟩
  rw [Input.Place, hplace, hpair side, hpair side']

theorem passable_pick (hrc : m.correspondence? r = some ⟨c, q⟩)
    (h : Passable p m side (side.pick r c)) (side' : Side) :
    Passable p m side' (side'.pick r c) := by
  refine ⟨⟨q, r, c, hrc, rfl⟩, mt (isTerminal_of_kind?_eq ?_) h.2⟩
  rw [kind?_pick hm hrc, kind?_pick hm hrc]

variable (hroots : m.comparisonFor? p.reference.root = some p.comparison.root)

include hroots

/-- The walk comes to a node through its parent, or the node is in a detached pair. -/
theorem parent_or_detached (hn : n ∈ (p.tree side).children a) (hreached : Reached p m side n) :
    (Reached p m side a ∧ Passable p m side a) ∨
      ∃ r c q, m.correspondence? r = some ⟨c, q⟩ ∧
        ¬ m.Attached p.reference p.comparison r c ∧ side.pick r c = n := by
  have hroot : n ≠ (p.tree side).root := by
    rintro rfl
    exact root_notMem_children _ a hn
  obtain ⟨side', b, x, hx, horigin, hb, hpass⟩ :=
    exists_passable_above hm hroots hreached hroot
  rcases Input.pair_of_origin_eq (i := p.input m) hm.valid horigin with
    ⟨rfl, rfl⟩ | ⟨r, c, q, hrc, rfl, rfl⟩
  · obtain rfl := parent_unique hn hx
    exact .inl ⟨hb, hpass⟩
  · by_cases hattached : m.Attached p.reference p.comparison r c
    · rcases hattached with ⟨rfl, rfl⟩ | ⟨u, v, hu, hv, huv⟩
      · exact absurd (root_eq_pick side).symm hroot
      · -- the parents are a pair: the walk came through the partner of the parent
        have hchildren := pick_mem_children (parent?_eq_some_iff.1 hu) (parent?_eq_some_iff.1 hv)
        obtain rfl := parent_unique (hchildren side) hn
        obtain rfl := parent_unique (hchildren side') hx
        obtain ⟨q', huv⟩ := Mapping.comparisonFor?_eq_some_iff.1 huv
        exact .inl ⟨reached_pick hm huv hb side, passable_pick hm huv hpass side⟩
    · exact .inr ⟨r, c, q, hrc, hattached, rfl⟩

/-- Between an end of the walk and a node below that it comes to there is a detached pair. -/
theorem exists_detachedBetween (hn : n < (p.tree side).size)
    (habove : (p.tree side).isAncestor outer n = true) (hstop : ¬ Passable p m side outer)
    (hreached : Reached p m side n) :
    ∃ q, DetachedBetween m p.reference p.comparison side outer n q := by
  induction n, hn using induction_down with
  | root =>
    rw [not_isAncestor_root] at habove
    simp at habove
  | child w n hn ih =>
    rcases parent_or_detached hm hroots hn hreached with ⟨hw, hpass⟩ | ⟨r, c, q, hrc, hfree, rfl⟩
    · rcases (isAncestor_of_mem_children hn).1 habove with rfl | habove
      · exact absurd hpass hstop
      · obtain ⟨q, r, c, hrc, hfree, houter, hinner⟩ := ih habove hw
        exact ⟨q, r, c, hrc, hfree, houter, .inr ((isAncestor_of_mem_children hn).2 hinner)⟩
    · exact ⟨q, r, c, hrc, hfree, habove, .inl rfl⟩

/-- A subtree is reported inside of another one only below a detached pair. -/
theorem detachedBetween_of_mem_oneSided (hp : p.Own)
    (he : e ∈ (ofMerged (build (p.input m)) m).oneSided side)
    (he' : e' ∈ (ofMerged (build (p.input m)) m).oneSided side)
    (habove : (p.tree side).isAncestor e.origin e'.origin = true) :
    ∃ q, DetachedBetween m p.reference p.comparison side e.origin e'.origin q := by
  obtain ⟨-, -, hstop, -⟩ := of_mem_oneSided hp hm he
  obtain ⟨-, hreached, -, -⟩ := of_mem_oneSided hp hm he'
  exact exists_detachedBetween hm hroots (hreached.lt_size hm) habove hstop hreached

end Fair

/-- Below an exact pair nothing is reported. -/
theorem quality_of_detachedBetween (hp : p.Own) (hm : Levelled p m)
    (he : e ∈ (ofMerged (build (p.input m)) m).oneSided side)
    (h : DetachedBetween m p.reference p.comparison side outer e.origin q) : q = .approximate := by
  obtain ⟨-, hreached, -, hnew⟩ := of_mem_oneSided hp hm.fair he
  obtain ⟨r, c, hrc, -, -, hinner⟩ := h
  cases q with
  | approximate => rfl
  | exact =>
    have hkept := inPair_exact_of_inSubtree hm ⟨r, c, hrc, rfl⟩ (hreached.lt_size hm.fair) hinner
    exact absurd ((kept_iff_inPair_exact hm).2 hkept) hnew

/-- If all approximate pairs are attached, the reported subtrees are maximal. -/
theorem maximal_of_attached (hp : p.Own) (hm : Levelled p m)
    (hroots : m.comparisonFor? p.reference.root = some p.comparison.root)
    (hattached : ∀ r c, m.correspondence? r = some ⟨c, .approximate⟩ →
      m.Attached p.reference p.comparison r c) (side : Side) :
    (ofMerged (build (p.input m)) m).Maximal side (p.tree side) := by
  intro e he e' he'
  by_contra habove
  rw [Bool.not_eq_false] at habove
  obtain ⟨q, hbetween⟩ := detachedBetween_of_mem_oneSided hm.fair hroots hp he he' habove
  obtain rfl := quality_of_detachedBetween hp hm he' hbetween
  obtain ⟨r, c, hrc, hdetached, -⟩ := hbetween
  exact hdetached (hattached r c hrc)

/-- For all expressions and settings: a subtree is reported inside of another one of its side only
below a detached pair. Without collisions that pair is approximate, and if nodes are not paired by
overlap, all reported subtrees are maximal. -/
theorem nested_reports_below_detached (reference comparison : Expression) (config : Config) :
    (∀ side,
      ∀ e ∈ (Correlation.ofExpressions reference comparison config).difference.oneSided side,
      ∀ e' ∈ (Correlation.ofExpressions reference comparison config).difference.oneSided side,
        (side.pick reference comparison).isAncestor e.origin e'.origin = true →
          ∃ q, DetachedBetween (Mapping.ofExpressions reference comparison config)
              reference comparison side e.origin e'.origin q ∧
            (CollisionFree reference comparison → q = .approximate)) ∧
    (CollisionFree reference comparison → config.bestEffort = false → ∀ side,
      (Correlation.ofExpressions reference comparison config).difference.Maximal side
        (side.pick reference comparison)) := by
  have hown := Problem.own_ofExpressions reference comparison config
  have hroots := comparisonFor?_root_run hown
  refine ⟨fun side e he e' he' habove => ?_, fun hfree hconfig side => ?_⟩
  · obtain ⟨q, hbetween⟩ :=
      detachedBetween_of_mem_oneSided (fair_run hown) hroots hown he he' habove
    refine ⟨q, hbetween, fun hfree => ?_⟩
    have hm := levelled_run (Problem.sound_ofExpressions config hfree)
    exact quality_of_detachedBetween hown hm he' hbetween
  · have hp := Problem.sound_ofExpressions config hfree
    have hattached := (spined_run hp hconfig).attached
    have hmaximal := maximal_of_attached hown (levelled_run hp) hroots hattached side
    exact hmaximal

/-- A necessary set over two concepts and a sufficient set over a third one. -/
def Sample.twoGroups : Expression where
  nodes := .ofList [⟨.concept 1, []⟩, ⟨.concept 2, []⟩, ⟨.conjunction, [0, 1]⟩,
    ⟨.necessarySet, [2]⟩, ⟨.concept 5, []⟩, ⟨.sufficientSet, [4]⟩, ⟨.root, [3, 5]⟩]
  root := 6
  parents := #[some 2, some 2, some 3, some 6, some 5, some 6, none]
  valid := by decide +kernel

/-- One of the two concepts, in a sufficient set. -/
def Sample.oneGroup : Expression where
  nodes := .ofList [⟨.concept 1, []⟩, ⟨.conjunction, [0]⟩, ⟨.sufficientSet, [1]⟩, ⟨.root, [2]⟩]
  root := 3
  parents := #[some 1, some 2, some 3, none]
  valid := by decide +kernel

/-- What evaluation says about the two expressions. -/
theorem Sample.evaluated_oneGroup : CollisionFree twoGroups oneGroup ∧
    (Correlation.ofExpressions twoGroups oneGroup {}).difference.deletionOrigins = [3, 4, 1] := by
  decide +kernel

/-- The necessary set is deleted, and so is the concept in it that the second expression lacks. -/
theorem Sample.exists_nested_deletions :
    ∃ e ∈ (Correlation.ofExpressions twoGroups oneGroup {}).difference.oneSided .reference,
      ∃ e' ∈ (Correlation.ofExpressions twoGroups oneGroup {}).difference.oneSided .reference,
        e.origin = 3 ∧ e'.origin = 1 := by
  have hmem : ∀ n ∈ [3, 4, 1], ∃ e ∈
      (Correlation.ofExpressions twoGroups oneGroup {}).difference.oneSided .reference,
        e.origin = n := by
    intro n hn
    rw [← Sample.evaluated_oneGroup.2] at hn
    exact exists_of_mem_deletionOrigins hn
  obtain ⟨e, he, horigin⟩ := hmem 3 (by decide)
  obtain ⟨e', he', horigin'⟩ := hmem 1 (by decide)
  exact ⟨e, he, e', he', horigin, horigin'⟩

/-- The conjunctions are a pair by overlap, but the sets above them are not. -/
theorem nested_reports_below_detached_oneGroup :
    DetachedBetween (Mapping.ofExpressions Sample.twoGroups Sample.oneGroup {})
        Sample.twoGroups Sample.oneGroup .reference 3 1 .approximate ∧
      (Correlation.ofExpressions Sample.twoGroups Sample.oneGroup
        { bestEffort := false }).difference.Maximal .reference Sample.twoGroups := by
  constructor
  · obtain ⟨e, he, e', he', horigin, horigin'⟩ := Sample.exists_nested_deletions
    have habove : Sample.twoGroups.isAncestor e.origin e'.origin = true := by
      rw [horigin, horigin']
      decide +kernel
    obtain ⟨q, hbetween, hquality⟩ :=
      (nested_reports_below_detached Sample.twoGroups Sample.oneGroup {}).1
        .reference e he e' he' habove
    rwa [horigin, horigin', hquality Sample.evaluated_oneGroup.1] at hbetween
  · exact (nested_reports_below_detached Sample.twoGroups Sample.oneGroup
      { bestEffort := false }).2 Sample.evaluated_oneGroup.1 rfl .reference

/-- Reported subtrees need not be maximal if nodes are paired by overlap. -/
theorem reports_not_maximal :
    ¬ (Correlator.default.correlate Sample.twoGroups Sample.oneGroup).difference.Maximal
      .reference Sample.twoGroups := by
  have hcorrelation : Correlator.default.correlate Sample.twoGroups Sample.oneGroup =
      Correlation.ofExpressions Sample.twoGroups Sample.oneGroup {} := rfl
  rw [hcorrelation]
  intro hmaximal
  obtain ⟨e, he, e', he', horigin, horigin'⟩ := Sample.exists_nested_deletions
  have hnot := hmaximal e he e' he'
  rw [horigin, horigin'] at hnot
  revert hnot
  decide +kernel

end Difference
end Concordance
