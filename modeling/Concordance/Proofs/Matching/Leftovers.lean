import Concordance.Proofs.Matching.Justified

/-!
# Pairs that best effort leaves over

The overlap pass looks at every interior node once, while the mapping still
grows. Its verdict is final nevertheless: the children of a node are visited
before it, and a pair of unmatched nodes at the same depth is never refused, so a
node that stays unmatched had no candidate with enough common children. Later
pairs change nothing about this, because the spine pass pairs no children of
unmatched nodes.
-/
namespace Concordance.Matching

open Expression

variable {p : Problem} {m m' : Mapping} {s s' : State} {r c x y : Nat} {xs : List Nat}

/-- Two unmatched nodes at the same depth are not on opposite sides of any pair: below an exact pair
nothing is unmatched, and approximate pairs are level. -/
theorem Levelled.inverts_eq_false (hp : p.Own) (hm : Levelled p m) (hr : r < p.reference.size)
    (hc : c < p.comparison.size) (hrfree : m.comparisonFor? r = none)
    (hcfree : m.referenceFor? c = none) (hdepth : p.reference.depth r = p.comparison.depth c) :
    p.inverts m r c = false := by
  rw [← Bool.not_eq_true, hp.inverts_iff hm.fair.valid hr hc]
  rintro ⟨x, y, hxy, hcross⟩
  obtain ⟨hx, hy⟩ := hm.fair.valid.lt_sizes hxy
  obtain ⟨q, hq⟩ := Mapping.comparisonFor?_eq_some_iff.1 hxy
  cases q with
  | approximate =>
    exact not_crosses_of_level hr hx hc hy hdepth (hm.approximate x y hq).2 hcross
  | exact =>
    have hcarries := hm.carriesSubtree hq
    rcases hcross with ⟨hxr, -⟩ | ⟨-, hyc⟩
    · obtain ⟨b, -, -, hb⟩ := hcarries.into r hr (.inr hxr)
      rw [Mapping.comparisonFor?_eq_some_iff.2 ⟨_, hb⟩] at hrfree
      cases hrfree
    · obtain ⟨a, -, -, ha⟩ := hcarries.onto c hc (.inr hyc)
      have hpair := Mapping.comparisonFor?_eq_some_iff.2 ⟨_, ha⟩
      rw [(hm.fair.valid.agree a c).1 hpair] at hcfree
      cases hcfree

theorem Levelled.admits_candidate (hp : p.Own) (hm : Levelled p m) (h : Candidate p m r c)
    (hrfree : m.comparisonFor? r = none) : p.admits m r c = true := by
  rw [Problem.admits, Problem.kindsAgree, h.kind, BEq.rfl, hm.inverts_eq_false hp h.reference
    h.comparison hrfree h.unmatched h.depth, Bool.and_false]
  rfl

/-- A node that has no partner after its visit had no candidate with enough common children. -/
theorem Levelled.commonChildren_lt (hp : p.Own) (hm : Levelled p m) (hmin : 0 < p.config.minOverlap)
    (h : Candidate p m r c) (hrfree : m.comparisonFor? r = none) (hinner : isInterior p r = true)
    (hstay : (overlapStep p m r).comparisonFor? r = none) :
    m.commonChildren p.reference p.comparison r c < p.config.minOverlap := by
  by_contra henough
  rw [Nat.not_lt, ← count_overlaps hp h] at henough
  have hmem : (c, (overlaps p m r).count c) ∈ rankedCandidates p m r :=
    mem_rankedCandidates_iff.2
      ⟨List.count_pos_iff.1 (Nat.lt_of_lt_of_le hmin henough), rfl, henough⟩
  rcases overlapStep_cases hp hm.fair.valid r with ⟨hnone, -⟩ | ⟨d, -, -, hinsert⟩
  · rw [overlapPartner?, if_neg (by simp [Mapping.hasReference_eq_false_iff.2 hrfree, hinner]),
      Option.map_eq_none_iff, List.find?_eq_none] at hnone
    exact hnone _ hmem (hm.admits_candidate hp h hrfree)
  · rw [Mapping.comparisonFor?_insert? hinsert, if_pos rfl] at hstay
    cases hstay

/-- The steps of other nodes leave a node as it is. -/
theorem comparisonFor?_foldl_overlapStep (hp : p.Own)
    (hm : m.Valid p.reference.size p.comparison.size) (hx : x ∉ xs) :
    (xs.foldl (overlapStep p) m).comparisonFor? x = m.comparisonFor? x := by
  induction xs generalizing m with
  | nil => rfl
  | cons r xs ih =>
    rw [List.mem_cons, not_or] at hx
    rw [List.foldl_cons]
    rcases overlapStep_cases hp hm r with ⟨-, hstay⟩ | ⟨c, -, -, hinsert⟩
    · rw [hstay, ih hm hx.2]
    · rw [ih (hm.insert hinsert) hx.2, Mapping.comparisonFor?_insert? hinsert, if_neg hx.1]

/-- The spine pass leaves the children of unmatched nodes as they are. -/
structure Untouched (p : Problem) (m m' : Mapping) (r : Nat) : Prop where
  roots : m'.comparisonFor? p.reference.root = some p.comparison.root
  children : m'.comparisonFor? r = none →
    ∀ x ∈ p.reference.children r, m'.comparisonFor? x = m.comparisonFor? x

theorem Untouched.pair {q : Quality} (hs : Untouched p m s.mapping r)
    (hx : x ∈ p.reference.children r → s.mapping.comparisonFor? r ≠ none) :
    Untouched p m (s.pair p x y q).mapping r := by
  rcases State.pair_cases p s x y q with hsame | hpair
  · rwa [hsame]
  · obtain ⟨-, hinsert, -, -⟩ := State.pair?_eq_some hpair
    have hextends := Mapping.Extends.of_insert? hinsert
    refine ⟨hextends.comparisonFor? hs.roots, fun hr z hz => ?_⟩
    have hfree := hextends.unmatched hr
    rw [Mapping.comparisonFor?_insert? hinsert, if_neg, hs.children hfree z hz]
    rintro rfl
    exact hx hz hfree

theorem untouched_spinePairs (hs : Fair p s.mapping) (r : Nat) :
    Untouched p s.mapping (spinePairs p s).mapping r := by
  refine spinePairs_induction (P := fun t => Untouched p s.mapping t.mapping r) ?_ ?_ ?_
  · intro t x y ht hsets
    refine ht.pair fun hx => ?_
    rw [parent_unique hx hsets.reference, ht.roots]
    simp
  · intro t a b x y ht hbelow
    refine ht.pair fun hx => ?_
    rw [parent_unique hx hbelow.reference, hbelow.partners]
    simp
  · refine ⟨comparisonFor?_pairRoots hs, fun _ x hx => ?_⟩
    rcases pairRoots_cases p s with hsame | hpair
    · rw [hsame]
    · rw [Mapping.comparisonFor?_insert? (State.pair?_eq_some hpair).2.1, if_neg]
      rintro rfl
      exact root_notMem_children _ _ hx

theorem levelled_foldl_overlapStep (hp : p.Own) (hm : Levelled p m) (xs : List Nat) :
    Levelled p (xs.foldl (overlapStep p) m) := by
  refine List.foldlRecOn (motive := Levelled p) xs _ hm fun t ht r _ => ?_
  have hstep := levelled_pairByOverlap (s := { State.initial p with mapping := t }) (r := r) hp ht
  rwa [Levelled.mapping_pairByOverlap (s := { State.initial p with mapping := t }) hp ht] at hstep

theorem ongoing_foldl_overlapStep (hp : p.Own) (hm : m.Valid p.reference.size p.comparison.size)
    (xs : List Nat) : Ongoing p m (xs.foldl (overlapStep p) m) :=
  List.foldlRecOn (motive := Ongoing p m) xs _ ⟨hm, .refl m⟩ fun _ ht r _ => ht.overlapStep hp r

/-- In post-order the children of a node come before it, so no later step is about one of them. -/
theorem comparisonFor?_child_overlapPass (hp : p.Own)
    (hm : m.Valid p.reference.size p.comparison.size) {before after : List Nat}
    (hsplit : p.reference.postOrder = before ++ r :: after) (hx : x ∈ p.reference.children r) :
    (p.reference.postOrder.foldl (overlapStep p) m).comparisonFor? x =
      (before.foldl (overlapStep p) m).comparisonFor? x := by
  have hlate := p.reference.postOrder_pairwise
  rw [hsplit, List.pairwise_append, List.pairwise_cons] at hlate
  have hx' : x ∉ r :: after := by
    rw [List.mem_cons, not_or]
    refine ⟨fun heq => ?_, fun hmem => hlate.2.1.1 x hmem hx⟩
    rw [heq] at hx
    exact notMem_children_self _ _ hx
  rw [hsplit, List.foldl_append]
  exact comparisonFor?_foldl_overlapStep hp (ongoing_foldl_overlapStep hp hm before).valid hx'

theorem commonChildren_congr (h : ∀ x ∈ p.reference.children r,
    m'.comparisonFor? x = m.comparisonFor? x) :
    m'.commonChildren p.reference p.comparison r c =
      m.commonChildren p.reference p.comparison r c := by
  apply List.countP_congr
  intro x hx
  rw [h x hx]

/-- Two nodes that can be a pair: an interior reference node and a comparison node of the same kind
and depth. -/
structure Eligible (p : Problem) (r c : Nat) : Prop where
  reference : r < p.reference.size
  comparison : c < p.comparison.size
  interior : isInterior p r = true
  kind : p.reference.kind? r = p.comparison.kind? c
  depth : p.reference.depth r = p.comparison.depth c

/-- After the overlap pass two such nodes that are unmatched have too few common children. -/
theorem commonChildren_lt_overlapPass (hp : p.Own) (hm : Levelled p m)
    (hmin : 0 < p.config.minOverlap) (h : Eligible p r c)
    (hrfree : (p.reference.postOrder.foldl (overlapStep p) m).comparisonFor? r = none)
    (hcfree : (p.reference.postOrder.foldl (overlapStep p) m).referenceFor? c = none) :
    (p.reference.postOrder.foldl (overlapStep p) m).commonChildren p.reference p.comparison r c <
      p.config.minOverlap := by
  obtain ⟨before, after, hsplit⟩ := List.append_of_mem (mem_postOrder.2 h.reference)
  have hchildren := fun x hx =>
    comparisonFor?_child_overlapPass (x := x) hp hm.fair.valid hsplit hx
  rw [commonChildren_congr hchildren]
  -- at the visit of r the partners of its children are final, and c is free
  have hvisit := levelled_foldl_overlapStep hp hm before
  rw [hsplit, List.foldl_append, List.foldl_cons] at hrfree hcfree
  generalize before.foldl (overlapStep p) m = t at hvisit hrfree hcfree
  have hstart : Ongoing p t t := ⟨hvisit.fair.valid, .refl t⟩
  have hstep := hstart.overlapStep hp r
  have hrest := ongoing_foldl_overlapStep hp hstep.valid after
  have hstay := hrest.extension.unmatched hrfree
  have hcandidate : Candidate p t r c :=
    ⟨h.reference, h.comparison, (hrest.extension.trans hstep.extension).unmatched_comparison
      hvisit.fair.valid hrest.valid hcfree, h.kind, h.depth⟩
  exact hvisit.commonChildren_lt hp hmin hcandidate (hstep.extension.unmatched hstay) h.interior
    hstay

theorem commonChildren_lt_run (hp : p.Sound) (hbest : p.config.bestEffort = true)
    (hmin : 0 < p.config.minOverlap) (h : Eligible p r c)
    (hrfree : (run p).mapping.comparisonFor? r = none)
    (hcfree : (run p).mapping.referenceFor? c = none) :
    (run p).mapping.commonChildren p.reference p.comparison r c < p.config.minOverlap := by
  have hpass : (afterOverlap p).mapping =
      p.reference.postOrder.foldl (overlapStep p) (afterSignatures p).mapping := by
    unfold afterOverlap
    rw [if_pos hbest]
    exact mapping_overlapPass hp.toOwn (finishing_afterSignatures hp.toOwn)
  have hlevelled := levelled_afterOverlap hp
  have hfinal := finishing_run hp.toOwn
  have hchildren : ∀ x ∈ p.reference.children r,
      (run p).mapping.comparisonFor? x = (afterOverlap p).mapping.comparisonFor? x := by
    rw [mapping_run hp.toOwn] at hrfree ⊢
    exact (untouched_spinePairs hlevelled.fair r).children hrfree
  have hrearlier := hfinal.added.extension.unmatched hrfree
  have hcearlier := hfinal.added.extension.unmatched_comparison hlevelled.fair.valid
    hfinal.fair.valid hcfree
  rw [commonChildren_congr hchildren]
  rw [hpass] at hrearlier hcearlier ⊢
  exact commonChildren_lt_overlapPass hp.toOwn (levelled_afterSignatures hp) hmin h hrearlier
    hcearlier

/-- For all expressions and all accepted settings with best effort, without collisions: two
unmatched interior nodes of one kind at the same depth have fewer common children than the settings
ask for. -/
theorem no_eligible_pair_left (reference comparison : Expression) (config : Config)
    (hfree : CollisionFree reference comparison) (hvalid : config.validate = .ok ())
    (hbest : config.bestEffort = true) (r c : Nat) (kind : Kind)
    (hr : reference.kind? r = some kind) (hc : comparison.kind? c = some kind)
    (hinterior : kind.isLeaf = false) (hdepth : reference.depth r = comparison.depth c)
    (hrfree : (Mapping.ofExpressions reference comparison config).comparisonFor? r = none)
    (hcfree : (Mapping.ofExpressions reference comparison config).referenceFor? c = none) :
    (Mapping.ofExpressions reference comparison config).commonChildren reference comparison r c <
      config.minOverlap := by
  have hp := Problem.sound_ofExpressions config hfree
  have hmin : 0 < config.minOverlap := by
    by_contra hzero
    have hnone : config.minOverlap = 0 := by omega
    simp [Config.validate, hbest, hnone] at hvalid
  exact commonChildren_lt_run hp hbest hmin ⟨lt_size_of_kind? hr, lt_size_of_kind? hc,
    isInterior_iff.2 ⟨kind, hr, hinterior⟩, hr.trans hc.symm, hdepth⟩ hrfree hcfree

/-- The second roles of the two expressions have no child in common. -/
theorem no_eligible_pair_left_refilled :
    (Mapping.ofExpressions Sample.filled Sample.refilled {}).commonChildren Sample.filled
      Sample.refilled 3 3 < 1 :=
  no_eligible_pair_left Sample.filled Sample.refilled {} Sample.evaluated_refilled.1 rfl rfl 3 3
    (.existential 8) (by decide) (by decide) (by decide) (by decide)
    Sample.evaluated_refilled.2.2.1 Sample.evaluated_refilled.2.2.2

end Concordance.Matching
