import Concordance.Proofs.Matching.Accepted
import Concordance.Proofs.Matching.Leftovers

/-!
# Safeguards that are never needed

Without collisions neither safeguard ever does anything. While exact pairs are
made, larger nodes come first, so the common parent of matched children is
matched before the children are; and alike nodes are equally large, so they are
never on opposite sides of a pair. After the exact passes nothing is left to
propagate, and approximate pairs are put up between unmatched nodes at the same
depth, or at the top of both expressions.
-/
namespace Concordance.Matching

open Expression

variable {p : Problem} {m : Mapping} {s s' : State} {r c x y : Nat} {work : State × List Nat}

section Exact

variable (hp : p.Sound)

include hp

/-- Alike nodes are a harmless trial while all pairs are exact. -/
theorem harmless_of_alike (hm : Exact p m) (halike : p.Alike r c) :
    Harmless p ⟨m, r, c, false⟩ :=
  ⟨rfl, hp.inverts_eq_false hm.valid (fun _ _ => hm.alike) halike⟩

theorem harmless_childTrials (hs : Exact p work.1.mapping) (hx : x < p.reference.size) :
    ∀ t ∈ childTrials p work x, Harmless p t := by
  unfold childTrials
  split
  · simp
  · intro t ht
    obtain ⟨c, hc, rfl⟩ := List.mem_map.1 ht
    exact harmless_of_alike hp hs (hp.alike_of_signaturesAgree hx (List.mem_filter.1 hc).2)

theorem harmless_childrenTrials (hs : Exact p s.mapping) :
    ∀ t ∈ childrenTrials p s r c, Harmless p t := by
  unfold childrenTrials
  dsimp only
  split
  · simp
  · refine forall_trialsAlong
      (P := fun w => Exact p w.1.mapping ∧ ∀ y ∈ w.2, y < p.comparison.size) ?_ ⟨hs, fun y hy => ?_⟩
    · rintro x hx ⟨s, free⟩ ⟨hw, hfree⟩
      have hsize := (lt_size_of_mem_children (mem_ascending.1 hx)).1
      refine ⟨harmless_childTrials hp hw hsize, ?_⟩
      rcases pairChild_cases hp.toOwn (s := s) hsize hfree with
        hstay | ⟨y, -, halike, s', hpair, hnext⟩
      · rw [hstay]
        exact ⟨hw, hfree⟩
      · rw [hnext]
        exact ⟨Exact.of_pair? hw halike hpair, fun z hz => hfree z (List.mem_of_mem_erase hz)⟩
    · exact (lt_size_of_mem_children (List.mem_filter.1 (mem_ascending.1 hy)).1).1

theorem harmless_stepTrials (hs : Orderly p s) : ∀ t ∈ stepTrials p s, Harmless p t := by
  unfold stepTrials
  split
  · split
    · simp
    · exact harmless_childrenTrials (s := { s with pending := _ }) hp hs.exact
  · split
    · simp
    · rename_i parent rest _
      rw [parentTrials_eq_nil (s := { s with worklist := rest }) hp.toOwn hs.below]
      simp

theorem harmless_settleTrials (hs : Orderly p s) : ∀ t ∈ settleTrials p s, Harmless p t := by
  induction s using settle.induct p with
  | case1 s hnone =>
    rw [settleTrials_of_none hnone]
    simp
  | case2 s s' htaken ih =>
    rw [settleTrials_of_some htaken]
    intro t ht
    rcases List.mem_append.1 ht with ht | ht
    · exact harmless_stepTrials hp hs t ht
    · exact ih (orderly_step? hp hs htaken) t ht

theorem harmless_followingTrials {accepted : Option State}
    (h : ∀ s' ∈ accepted, Orderly p s') : ∀ t ∈ followingTrials p accepted, Harmless p t := by
  cases accepted with
  | none => simp [followingTrials]
  | some s' => exact harmless_settleTrials hp (h s' rfl)

theorem harmless_anchorTrials (hs : Settled p s) {anchor : Nat × Nat} (hanchor : anchor ∈ p.anchors)
    (hlarger : ∀ a b, (a, b) ∈ p.anchors → p.reference.extent anchor.1 < p.reference.extent a →
      ¬ Matchable p s.mapping a b) :
    ∀ t ∈ anchorTrials p s anchor, Harmless p t := by
  unfold anchorTrials
  split
  · simp
  · intro t ht
    rcases List.mem_cons.1 ht with rfl | ht
    · exact harmless_of_alike hp hs.exact (hp.alike_of_mem_anchors hanchor)
    · refine harmless_followingTrials hp (fun s' hpair => ?_) t ht
      exact orderly_of_anchor hp hs hanchor hlarger hpair

theorem harmless_signatureTrials (hs : Settled p s) (hr : r < p.reference.size)
    (hlarger : ∀ a < p.reference.size, p.reference.extent r < p.reference.extent a →
      ∀ b, ¬ Matchable p s.mapping a b) :
    ∀ t ∈ signatureTrials p s r, Harmless p t := by
  unfold signatureTrials
  split
  · simp
  · obtain ⟨signature, hsignature⟩ := hp.exists_reference_get? hr
    dsimp only
    rw [ask_reference hp.toOwn (by simpa using hr), hsignature]
    dsimp only
    have halike : ∀ c ∈ (p.comparisonTable.nodesWith signature).filter
        (fun c => !s.mapping.hasComparison c), p.Alike r c := fun c hc =>
      (Problem.alike_iff hsignature).2 (hp.mem_comparison_nodesWith.1 (List.mem_filter.1 hc).1)
    generalize (p.comparisonTable.nodesWith signature).filter
      (fun c => !s.mapping.hasComparison c) = free at halike
    have hnoted := hs.congr (mapping_noteChoice s r free) (pending_noteChoice s r free)
    rw [← mapping_noteChoice s r free] at hlarger
    generalize noteChoice s r free = t at hnoted hlarger
    intro u hu
    rcases List.mem_append.1 hu with hu | hu
    · obtain ⟨c, hc, rfl⟩ := List.mem_map.1 hu
      exact harmless_of_alike hp hnoted.exact (halike c hc)
    · refine harmless_followingTrials hp (fun s' hfound => ?_) u hu
      obtain ⟨c, hc, hpair⟩ := List.exists_of_findSome?_eq_some hfound
      exact orderly_of_larger hp hnoted (halike c hc) hlarger hpair

end Exact

section Exhausted

variable (hp : p.Own)

include hp

theorem childTrials_eq_nil (hs : Exhausted p work.1.mapping) (hx : x < p.reference.size)
    (hfree : ∀ y ∈ work.2, work.1.mapping.referenceFor? y = none) : childTrials p work x = [] := by
  unfold childTrials
  split
  · rfl
  · rename_i hopen
    rw [Bool.not_eq_true, Mapping.hasReference_eq_false_iff] at hopen
    rw [List.map_eq_nil_iff, List.filter_eq_nil_iff]
    intro y hy hagree
    exact hs x y ⟨hp.alike_of_signaturesAgree hx hagree, hopen, hfree y hy⟩

theorem childrenTrials_eq_nil (hm : Levelled p s.mapping) : childrenTrials p s r c = [] := by
  have hloop : ∀ (xs free : List Nat), (∀ x ∈ xs, x < p.reference.size) →
      (∀ y ∈ free, y < p.comparison.size ∧ s.mapping.referenceFor? y = none) →
      trialsAlong (pairChild p) (childTrials p) (s, free) xs = [] := by
    intro xs free hxs hfree
    induction xs with
    | nil => rfl
    | cons x xs ih =>
      have hx := hxs x List.mem_cons_self
      have hnone : childTrials p (s, free) x = [] :=
        childTrials_eq_nil hp hm.exhausted_mapping hx fun y hy => (hfree y hy).2
      rw [trialsAlong, hnone, List.nil_append,
        pairChild_of_spent hp hm.spent hx fun y hy => (hfree y hy).1]
      exact ih fun z hz => hxs z (List.mem_cons_of_mem x hz)
  unfold childrenTrials
  dsimp only
  split
  · rfl
  · refine hloop _ _ (fun x hx => (lt_size_of_mem_children (mem_ascending.1 hx)).1) fun y hy => ?_
    obtain ⟨hchild, hopen⟩ := List.mem_filter.1 (mem_ascending.1 hy)
    rw [Bool.not_eq_true', Mapping.hasComparison_eq_false_iff] at hopen
    exact ⟨(lt_size_of_mem_children hchild).1, hopen⟩

theorem stepTrials_eq_nil (hm : Levelled p s.mapping) : stepTrials p s = [] := by
  unfold stepTrials
  split
  · split
    · rfl
    · exact childrenTrials_eq_nil (s := { s with pending := _ }) hp hm
  · split
    · rfl
    · rename_i parent rest _
      exact parentTrials_eq_nil (s := { s with worklist := rest }) hp fun r c hmatch =>
        absurd hmatch (hm.exhausted_mapping r c)

theorem settleTrials_eq_nil (hm : Levelled p s.mapping) : settleTrials p s = [] := by
  induction s using settle.induct p with
  | case1 s hnone => exact settleTrials_of_none hnone
  | case2 s s' htaken ih =>
    rw [settleTrials_of_some htaken, stepTrials_eq_nil hp hm, List.nil_append]
    apply ih
    rwa [mapping_step?_of_spent hp hm.spent htaken]

theorem harmless_overlapTrials (hm : Levelled p s.mapping) :
    ∀ t ∈ overlapTrials p s r, Harmless p t := by
  unfold overlapTrials
  split
  · simp
  · rename_i hopen
    rw [Bool.or_eq_true, not_or, Bool.not_eq_true, Mapping.hasReference_eq_false_iff] at hopen
    dsimp only
    intro t ht
    rcases List.mem_append.1 ht with ht | ht
    · obtain ⟨candidate, hcandidate, rfl⟩ := List.mem_map.1 ht
      have h := candidate_of_mem_overlaps hp (mem_rankedCandidates hcandidate)
      exact ⟨rfl, hm.inverts_eq_false hp h.reference h.comparison hopen.1 h.unmatched h.depth⟩
    · cases haccepted : (rankedCandidates p s.mapping r).findSome? fun candidate =>
          (s.pair? p r candidate.1 .approximate).map (·, candidate) with
      | none => simp [haccepted, followingTrials] at ht
      | some found =>
        obtain ⟨candidate, hcandidate, hpair⟩ := List.exists_of_findSome?_eq_some haccepted
        obtain ⟨s', hs', rfl⟩ := Option.map_eq_some_iff.1 hpair
        have h := candidate_of_mem_overlaps hp (mem_rankedCandidates hcandidate)
        have hlevelled := hm.of_pair? h.depth hs'
        -- nothing follows the accepted pair
        rw [haccepted, Option.map_some, followingTrials,
          settleTrials_eq_nil (s := s'.note _) hp hlevelled] at ht
        cases ht

omit hp in
theorem harmless_rootTrials : ∀ t ∈ rootTrials p s, Harmless p t := by
  unfold rootTrials
  split
  · simp
  · intro t ht
    rw [List.mem_singleton.1 ht]
    exact ⟨rfl, by simp [Problem.inverts]⟩

/-- Only the pair of the roots lies above two definition sets below the roots. -/
theorem inverts_topSets_eq_false (hm : m.Valid p.reference.size p.comparison.size)
    (hroots : m.comparisonFor? p.reference.root = some p.comparison.root)
    (h : TopSets p.reference p.comparison x y) : p.inverts m x y = false := by
  rw [← Bool.not_eq_true, hp.inverts_iff hm (lt_size_of_mem_children h.reference).1
    (lt_size_of_mem_children h.comparison).1]
  rintro ⟨a, b, hab, ⟨habove, hbelow⟩ | ⟨hbelow, habove⟩⟩
  · rcases (isAncestor_of_mem_children h.reference).1 habove with rfl | habove
    · rw [hroots] at hab
      rw [← Option.some.inj hab, not_isAncestor_root] at hbelow
      cases hbelow
    · rw [not_isAncestor_root] at habove
      cases habove
  · rcases (isAncestor_of_mem_children h.comparison).1 habove with rfl | habove
    · rw [hm.injective hab hroots, not_isAncestor_root] at hbelow
      cases hbelow
    · rw [not_isAncestor_root] at habove
      cases habove

/-- What holds of every mapping of the spine pass behind the roots. -/
structure LevelledSpine (p : Problem) (m : Mapping) : Prop extends Levelled p m where
  roots : m.comparisonFor? p.reference.root = some p.comparison.root

omit hp in
theorem LevelledSpine.pair (hs : LevelledSpine p s.mapping)
    (hdepth : p.reference.depth x = p.comparison.depth y) :
    LevelledSpine p (s.pair p x y .approximate).mapping := by
  have hgrows : Grows p s (s.pair p x y .approximate) := State.grows_pair (by simp)
  exact ⟨hs.toLevelled.pair hdepth, hgrows.extension.comparisonFor? hs.roots⟩

theorem harmless_setTrials {kind : Kind} (hkind : kind.isSet = true)
    (hs : LevelledSpine p s.mapping) :
    (∀ t ∈ setTrials p s kind, Harmless p t) ∧ LevelledSpine p (pairSets p s kind).mapping := by
  have hpair : ∀ sets ∈ (unmatchedReferenceSets p s.mapping kind).zip
      (unmatchedComparisonSets p s.mapping kind), ∀ t : State, LevelledSpine p t.mapping →
      LevelledSpine p (t.pair p sets.1 sets.2 .approximate).mapping :=
    fun sets hsets t ht => ht.pair (topSets_of_mem_zip hkind hsets).depth_eq
  constructor
  · refine forall_trialsAlong (P := fun t : State => LevelledSpine p t.mapping) ?_ hs
    intro sets hsets t ht
    refine ⟨fun u hu => ?_, hpair sets hsets t ht⟩
    rw [List.mem_singleton.1 hu]
    exact ⟨rfl, inverts_topSets_eq_false hp ht.fair.valid ht.roots
      (topSets_of_mem_zip hkind hsets)⟩
  · exact List.foldlRecOn (motive := fun t : State => LevelledSpine p t.mapping) _ _ hs
      fun t ht sets hsets => hpair sets hsets t ht

theorem harmless_connectTrials (hrequested : p.config.connectSpine = true) {a : Nat}
    (ha : a ∈ referenceSets p) (hs : LevelledSpine p s.mapping) :
    (∀ t ∈ connectTrials p s a, Harmless p t) ∧ LevelledSpine p (connectSet p s a).mapping := by
  unfold connectTrials
  rw [connectSet_eq]
  cases hconnected : connected? p s.mapping a with
  | none => exact ⟨by simp, hs⟩
  | some pair =>
    obtain ⟨b, hbelow⟩ := belowSets_of_connected? hrequested ha hconnected
    have hdepth := hs.depth_of_belowSets hbelow
    refine ⟨fun t ht => ?_, hs.pair hdepth⟩
    rw [List.mem_singleton.1 ht]
    exact ⟨rfl, hs.inverts_eq_false hp (lt_size_of_mem_children hbelow.reference).1
      (lt_size_of_mem_children hbelow.comparison).1 hbelow.unmatched hbelow.free hdepth⟩

theorem harmless_spineTrials (hs : Levelled p s.mapping) :
    ∀ t ∈ spineTrials p s, Harmless p t := by
  have hroots : LevelledSpine p (pairRoots p s).mapping :=
    ⟨levelled_pairRoots hs, comparisonFor?_pairRoots hs.fair⟩
  have hpaired : LevelledSpine p ([Kind.necessarySet, .sufficientSet, .propertySet].foldl
      (pairSets p) (pairRoots p s)).mapping :=
    List.foldlRecOn (motive := fun t : State => LevelledSpine p t.mapping) _ _ hroots
      fun t ht kind hkind => (harmless_setTrials hp (isSet_of_mem_kinds hkind) ht).2
  unfold spineTrials
  simp only [List.mem_append]
  rintro t (((ht | ht) | ht) | ht)
  · exact harmless_rootTrials t ht
  · exact forall_trialsAlong (P := fun t : State => LevelledSpine p t.mapping)
      (fun kind hkind t ht => harmless_setTrials hp (isSet_of_mem_kinds hkind) ht) hroots t ht
  · split at ht
    · rename_i hrequested
      exact forall_trialsAlong (P := fun t : State => LevelledSpine p t.mapping)
        (fun a ha t ht => harmless_connectTrials hp hrequested ha ht) hpaired t ht
    · cases ht
  · rw [settleTrials_eq_nil hp (levelled_spinePairs hs)] at ht
    cases ht

end Exhausted

section Run

variable (hp : p.Sound)

include hp

theorem harmless_trials : ∀ t ∈ trials p, Harmless p t := by
  have hanchors : Settled p (afterAnchors p) :=
    (settled_anchorPass hp (.initial p)).congr rfl rfl
  unfold trials
  simp only [List.mem_append]
  rintro t (((ht | ht) | ht) | ht)
  · obtain ⟨before, anchor, after, hsplit, ht⟩ := exists_round_of_mem ht
    obtain ⟨hs, hdone⟩ := settled_anchors_before hp (.initial p) hsplit
    have hmem : anchor ∈ p.anchors := by
      rw [hsplit]
      simp
    refine harmless_anchorTrials hp hs hmem (fun a b hab hlt => ?_) t ht
    exact hdone (a, b) (mem_before_of_larger (fun x => p.reference.extent x.1)
      hp.anchors_pairwise hsplit hab hlt)
  · obtain ⟨before, r, after, hsplit, ht⟩ := exists_round_of_mem ht
    obtain ⟨hs, hdone⟩ := settled_signatures_before hp hanchors hsplit
    have hr : r < p.reference.size := by
      rw [← Problem.mem_largestFirst, hsplit]
      simp
    refine harmless_signatureTrials hp hs hr (fun a ha hlt => ?_) t ht
    exact hdone a (mem_before_of_larger p.reference.extent hp.largestFirst_pairwise hsplit
      (Problem.mem_largestFirst.2 ha) hlt)
  · split at ht
    · refine forall_trialsAlong (P := fun t : State => Levelled p t.mapping) ?_
        (levelled_afterSignatures hp) t ht
      exact fun r _ t ht => ⟨harmless_overlapTrials hp.toOwn ht, levelled_pairByOverlap hp.toOwn ht⟩
    · cases ht
  · exact harmless_spineTrials hp.toOwn (levelled_afterOverlap hp) t ht

end Run

/-- For all expressions and settings, without collisions: the outcome is the same with and without
the check of parents and with and without the refusal of inversions. No check of a parent puts up a
pair, and no pair that is put up in a run is an inversion. What the run accepts has been put up. -/
theorem safeguards_never_needed (reference comparison : Expression) (config : Config)
    (hfree : CollisionFree reference comparison) :
    (∀ g : Safeguards,
      outcome ((Problem.ofExpressions reference comparison config).withSafeguards g) =
        .ok (Mapping.ofExpressions reference comparison config,
          (run (.ofExpressions reference comparison config)).log)) ∧
    (∀ t ∈ trials (.ofExpressions reference comparison config), t.raised = false ∧
      (Problem.ofExpressions reference comparison config).inverts t.mapping t.reference
        t.comparison = false) ∧
    Tried (.ofExpressions reference comparison config)
      (trials (.ofExpressions reference comparison config))
      (.initial (.ofExpressions reference comparison config))
      (run (.ofExpressions reference comparison config)) := by
  have hp := Problem.sound_ofExpressions config hfree
  have hharmless := harmless_trials hp
  refine ⟨fun g => ?_, hharmless, tried_run⟩
  have hrun := run_withSafeguards (g := g) hp.toOwn rfl hharmless
  have hsame : outcome ((Problem.ofExpressions reference comparison config).withSafeguards g) =
      outcome (.ofExpressions reference comparison config) := by
    unfold outcome
    rw [hrun]
  rw [hsame, outcome_eq hp.toOwn]
  rfl

/-- Two expressions of which some nodes are paired exactly and others by their place. -/
theorem safeguards_never_needed_twoSets :
    outcome ((Problem.ofExpressions Sample.twoSets Sample.oneSet {}).withSafeguards
        { checkParents := false, refuseInversions := false }) =
      .ok (Mapping.ofExpressions Sample.twoSets Sample.oneSet {},
        (run (.ofExpressions Sample.twoSets Sample.oneSet {})).log) :=
  (safeguards_never_needed Sample.twoSets Sample.oneSet {} Sample.collisionFree).1 _

end Concordance.Matching
