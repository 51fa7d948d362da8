import Concordance.Proofs.Matching.Raising
import Concordance.Proofs.Reordered

/-!
# Twin problems

Two problems are twins if the expressions of one are reorderings of those of the
other. The exact passes of twins go in step: children of pairs are visited by
number, so the same pairs are made and handed down, and although parents are
checked in different orders, the checks arrive at the same pairs.
-/
namespace Concordance

/-- What finds related results for every element finds related first results. -/
theorem rel_findSome? {α β γ : Type} {R : β → γ → Prop} {f : α → Option β} {g : α → Option γ}
    {xs : List α} (h : ∀ x ∈ xs, Option.Rel R (f x) (g x)) :
    Option.Rel R (xs.findSome? f) (xs.findSome? g) := by
  induction xs with
  | nil => exact .none
  | cons x xs ih =>
    rw [List.findSome?_cons, List.findSome?_cons]
    have hfirst := h x List.mem_cons_self
    generalize f x = b, g x = c at hfirst
    cases hfirst with
    | some hrel => exact .some hrel
    | none => exact ih fun y hy => h y (List.mem_cons_of_mem x hy)

namespace Matching

open Expression

variable {p p' : Problem} {m m' : Mapping} {s s' : State} {r c x y : Nat} {q : Quality}

/-- The expressions of the second problem are reorderings of those of the first one. -/
structure Twins (p p' : Problem) : Prop where
  guarded : p.Guarded
  guarded' : p'.Guarded
  reference : p.reference.Reordered p'.reference
  comparison : p.comparison.Reordered p'.comparison

theorem twins_ofExpressions {reference reference' comparison comparison' : Expression}
    (config : Config) (hr : reference.Reordered reference')
    (hc : comparison.Reordered comparison') :
    Twins (.ofExpressions reference comparison config)
      (.ofExpressions reference' comparison' config) :=
  ⟨Problem.guarded_ofExpressions _ _ _, Problem.guarded_ofExpressions _ _ _, hr, hc⟩

namespace Twins

variable (hp : Twins p p')

include hp

theorem referenceTable : p'.referenceTable = p.referenceTable := by
  rw [hp.guarded'.referenceTable, hp.guarded.referenceTable, hp.reference.ofExpression_eq]

theorem comparisonTable : p'.comparisonTable = p.comparisonTable := by
  rw [hp.guarded'.comparisonTable, hp.guarded.comparisonTable, hp.comparison.ofExpression_eq]

theorem signaturesAgree (r c : Nat) : p'.signaturesAgree r c = p.signaturesAgree r c := by
  rw [Problem.signaturesAgree, Problem.signaturesAgree, hp.referenceTable, hp.comparisonTable]

theorem kindsAgree (r c : Nat) : p'.kindsAgree r c = p.kindsAgree r c := by
  rw [Problem.kindsAgree, Problem.kindsAgree, hp.reference.kind?, hp.comparison.kind?]

theorem crosses : p'.Crosses x y r c ↔ p.Crosses x y r c := by
  simp only [Problem.Crosses, hp.reference.isAncestor, hp.comparison.isAncestor]

theorem valid (hm : m.Valid p.reference.size p.comparison.size) :
    m.Valid p'.reference.size p'.comparison.size := by
  rwa [hp.reference.size, hp.comparison.size]

theorem admits (hm : m.Valid p.reference.size p.comparison.size) (hr : r < p.reference.size)
    (hc : c < p.comparison.size) : p'.admits m r c = p.admits m r c := by
  have hr' : r < p'.reference.size := hp.reference.size ▸ hr
  have hc' : c < p'.comparison.size := hp.comparison.size ▸ hc
  rw [Bool.eq_iff_iff, hp.guarded.admits_iff hm hr hc,
    hp.guarded'.admits_iff (hp.valid hm) hr' hc', hp.reference.kind?, hp.comparison.kind?]
  simp only [hp.crosses]

theorem ripe (hm : m.Valid p.reference.size p.comparison.size) (h : Ripe p m r c) :
    Ripe p' m r c := by
  obtain ⟨hr, hc⟩ := h.lt_sizes
  refine ⟨h.reference, h.comparison, ?_, ?_, ?_, ?_, ?_⟩
  · intro hnil
    exact h.inner (List.perm_nil.1 (hnil ▸ (hp.reference.children r).symm))
  · intro x hx
    obtain ⟨y, hy, hxy⟩ := h.children x (hp.reference.mem_children.1 hx)
    exact ⟨y, hp.comparison.mem_children.2 hy, hxy⟩
  · rw [(hp.comparison.children c).length_eq, (hp.reference.children r).length_eq, h.width]
  · rw [hp.signaturesAgree, h.agree]
  · rw [hp.admits hm hr hc, h.admitted]

theorem raises (h : Raises p m m') : Raises p' m m' := by
  obtain ⟨hvalid, hripe, hinsert⟩ := h
  exact .pair (hp.valid hvalid) (hp.ripe hvalid hripe) hinsert

theorem anchors : p'.anchors = p.anchors := by
  have hlarger : p'.largerFirst = p.largerFirst := by
    funext a b
    rw [Problem.largerFirst, Problem.largerFirst, hp.referenceTable]
  have hanchor : p'.anchor? = p.anchor? := by
    funext r
    rw [Problem.anchor?, Problem.anchor?, hp.referenceTable, hp.comparisonTable]
  rw [Problem.anchors, Problem.anchors, hlarger, hanchor, hp.referenceTable]

theorem largestFirst : p'.largestFirst = p.largestFirst := by
  have hlarger : p'.largerFirst = p.largerFirst := by
    funext a b
    rw [Problem.largerFirst, Problem.largerFirst, hp.referenceTable]
  rw [Problem.largestFirst, Problem.largestFirst, hlarger, hp.reference.size]

end Twins

theorem Twins.symm (hp : Twins p p') : Twins p' p where
  guarded := hp.guarded'
  guarded' := hp.guarded
  reference := ⟨hp.reference.size.symm, fun n => (hp.reference.kind? n).symm,
    fun n => (hp.reference.children n).symm⟩
  comparison := ⟨hp.comparison.size.symm, fun n => (hp.comparison.kind? n).symm,
    fun n => (hp.comparison.children n).symm⟩

/-- Two states with the same pairs, of which the same are waiting. -/
structure InStep (p p' : Problem) (s s' : State) : Prop where
  mapping : s'.mapping = s.mapping
  pending : s'.pending = s.pending
  valid : s.mapping.Valid p.reference.size p.comparison.size
  watched : Watched p s
  watched' : Watched p' s'

theorem step?_of_unmatched {rest : List Nat} (hpending : s.pending = r :: rest)
    (hr : s.mapping.comparisonFor? r = none) : step? p s = some { s with pending := rest } := by
  simp only [step?, hpending, hr]

theorem step?_of_matched {rest : List Nat} (hpending : s.pending = r :: rest)
    (hr : s.mapping.comparisonFor? r = some c) :
    step? p s = some (pairChildren p { s with pending := rest } r c) := by
  simp only [step?, hpending, hr]

namespace InStep

variable (hp : Twins p p')

include hp

theorem initial : InStep p p' (.initial p) (.initial p') where
  mapping := by
    show Mapping.empty _ _ = Mapping.empty _ _
    rw [hp.reference.size, hp.comparison.size]
  pending := rfl
  valid := .empty
  watched := watched_initial p
  watched' := watched_initial p'

/-- The same pairs are accepted in both states. -/
theorem pair? (hs : InStep p p' s s') (hr : r < p.reference.size) (hc : c < p.comparison.size)
    (q : Quality) : Option.Rel (InStep p p') (s.pair? p r c q) (s'.pair? p' r c q) := by
  have hadmits : p'.admits s'.mapping r c = p.admits s.mapping r c := by
    rw [hs.mapping, hp.admits hs.valid hr hc]
  cases hpair : s.pair? p r c q with
  | none =>
    cases hpair' : s'.pair? p' r c q with
    | none => exact .none
    | some t' =>
      obtain ⟨hadmits', hinsert', -, -⟩ := State.pair?_eq_some hpair'
      obtain ⟨t, ht⟩ := State.exists_pair? (hadmits.symm.trans hadmits') (hs.mapping ▸ hinsert')
      simp [hpair] at ht
  | some t =>
    obtain ⟨hadmits', hinsert, hpending, -⟩ := State.pair?_eq_some hpair
    obtain ⟨t', hpair'⟩ := State.exists_pair? (s := s') (hadmits.trans hadmits')
      (by rw [hs.mapping]; exact hinsert)
    obtain ⟨-, hinsert', hpending', -⟩ := State.pair?_eq_some hpair'
    rw [hpair']
    refine .some ⟨?_, ?_, hs.valid.insert hinsert, ?_, ?_⟩
    · rw [hs.mapping, hinsert] at hinsert'
      exact (Option.some.inj hinsert').symm
    · rw [hpending', hs.pending, hpending]
    · exact watched_pair? hp.guarded hs.valid (fun a b hab _ => hs.watched a b hab) hpair
    · refine watched_pair? hp.guarded' ?_ (fun a b hab _ => hs.watched' a b hab) hpair'
      rw [hs.mapping]
      exact hp.valid hs.valid

theorem pairChild (hs : InStep p p' s s') {free : List Nat} (hx : x < p.reference.size)
    (hfree : ∀ n ∈ free, n < p.comparison.size) :
    InStep p p' (pairChild p (s, free) x).1 (pairChild p' (s', free) x).1 ∧
      (pairChild p' (s', free) x).2 = (pairChild p (s, free) x).2 ∧
      ∀ n ∈ (pairChild p (s, free) x).2, n < p.comparison.size := by
  unfold Matching.pairChild
  dsimp only
  rw [ask_reference hp.guarded.toOwn (by simpa using hx), ask_comparison hp.guarded.toOwn hfree,
    ask_reference hp.guarded'.toOwn (by simpa [hp.reference.size] using hx),
    ask_comparison hp.guarded'.toOwn (by simpa [hp.comparison.size] using hfree), hs.mapping]
  have hagree : p'.signaturesAgree x = p.signaturesAgree x := funext (hp.signaturesAgree x)
  have hfound : Option.Rel (fun a b => InStep p p' a.1 b.1 ∧ b.2 = a.2)
      ((free.filter (p.signaturesAgree x)).findSome?
        fun c => (s.pair? p x c .exact).map (·, c))
      ((free.filter (p.signaturesAgree x)).findSome?
        fun c => (s'.pair? p' x c .exact).map (·, c)) := by
    apply rel_findSome?
    intro c hc
    have hpair := hs.pair? hp hx (hfree c (List.mem_filter.1 hc).1) .exact
    generalize s.pair? p x c .exact = a, s'.pair? p' x c .exact = b at hpair
    cases hpair with
    | some hrel => exact .some ⟨hrel, rfl⟩
    | none => exact .none
  rw [hagree]
  split
  · exact ⟨hs, rfl, hfree⟩
  · generalize (free.filter (p.signaturesAgree x)).findSome?
      (fun c => (s.pair? p x c .exact).map (·, c)) = a at hfound ⊢
    generalize (free.filter (p.signaturesAgree x)).findSome?
      (fun c => (s'.pair? p' x c .exact).map (·, c)) = b at hfound ⊢
    cases hfound with
    | none => exact ⟨hs, rfl, hfree⟩
    | some hrel =>
      obtain ⟨hstep, hsame⟩ := hrel
      exact ⟨hstep, congrArg free.erase hsame, fun n hn => hfree n (List.mem_of_mem_erase hn)⟩

theorem foldl_pairChild (hs : InStep p p' s s') {xs free : List Nat}
    (hxs : ∀ x ∈ xs, x < p.reference.size) (hfree : ∀ n ∈ free, n < p.comparison.size) :
    InStep p p' (xs.foldl (Matching.pairChild p) (s, free)).1
      (xs.foldl (Matching.pairChild p') (s', free)).1 := by
  induction xs generalizing s s' free with
  | nil => exact hs
  | cons x xs ih =>
    obtain ⟨hstep, hsame, hrest⟩ := hs.pairChild hp (hxs x List.mem_cons_self) hfree
    rw [List.foldl_cons, List.foldl_cons]
    generalize Matching.pairChild p (s, free) x = a at hstep hsame hrest ⊢
    generalize Matching.pairChild p' (s', free) x = b at hstep hsame ⊢
    obtain ⟨t, left⟩ := a
    obtain ⟨t', left'⟩ := b
    obtain rfl : left' = left := hsame
    exact ih hstep (fun y hy => hxs y (List.mem_cons_of_mem x hy)) hrest

theorem pairChildren (hs : InStep p p' s s') :
    InStep p p' (pairChildren p s r c) (pairChildren p' s' r c) := by
  have hfree : ascending ((p'.comparison.children c).filter
      fun child => !s'.mapping.hasComparison child) =
      ascending ((p.comparison.children c).filter
        fun child => !s.mapping.hasComparison child) := by
    rw [hs.mapping]
    exact ascending_eq_of_perm ((hp.comparison.children c).filter _)
  unfold Matching.pairChildren
  dsimp only
  rw [hfree, ascending_eq_of_perm (hp.reference.children r)]
  split
  · exact hs
  · apply hs.foldl_pairChild hp
    · intro x hx
      exact (lt_size_of_mem_children (mem_ascending.1 hx)).1
    · intro y hy
      exact (lt_size_of_mem_children (List.mem_filter.1 (mem_ascending.1 hy)).1).1

/-- Twins go in step until nothing is pending any more. -/
theorem exists_drained (hs : InStep p p' s s') :
    ∃ t t', InStep p p' t t' ∧ t.pending = [] ∧ settle p s = settle p t ∧
      settle p' s' = settle p' t' := by
  induction s using settle.induct p generalizing s' with
  | case1 s hnone => exact ⟨s, s', hs, (step?_eq_none_iff.1 hnone).1, rfl, rfl⟩
  | case2 s s₁ htaken ih =>
    cases hpending : s.pending with
    | nil => exact ⟨s, s', hs, hpending, rfl, rfl⟩
    | cons r rest =>
      have hpending' : s'.pending = r :: rest := hs.pending.trans hpending
      have hrest : InStep p p' { s with pending := rest } { s' with pending := rest } :=
        ⟨hs.mapping, rfl, hs.valid, hs.watched, hs.watched'⟩
      obtain ⟨s₁', htaken', hnext⟩ : ∃ s₁', step? p' s' = some s₁' ∧ InStep p p' s₁ s₁' := by
        cases hc : s.mapping.comparisonFor? r with
        | none =>
          rw [step?_of_unmatched hpending hc] at htaken
          exact ⟨_, step?_of_unmatched hpending' (by rw [hs.mapping, hc]),
            Option.some.inj htaken ▸ hrest⟩
        | some c =>
          rw [step?_of_matched hpending hc] at htaken
          exact ⟨_, step?_of_matched hpending' (by rw [hs.mapping, hc]),
            Option.some.inj htaken ▸ hrest.pairChildren hp⟩
      obtain ⟨t, t', ht, hdone, hsettle, hsettle'⟩ := ih hnext
      refine ⟨t, t', ht, hdone, ?_, ?_⟩
      · rw [settle_of_some htaken, hsettle]
      · rw [settle_of_some htaken', hsettle']

/-- When twins have settled they are in step again. -/
theorem settle (hs : InStep p p' s s') : InStep p p' (settle p s) (settle p' s') := by
  obtain ⟨t, t', ht, hpending, hsettle, hsettle'⟩ := hs.exists_drained hp
  rw [hsettle, hsettle']
  have hpending' : t'.pending = [] := ht.pending.trans hpending
  have hvalid' : t'.mapping.Valid p'.reference.size p'.comparison.size := by
    rw [ht.mapping]
    exact hp.valid ht.valid
  obtain ⟨hvalid, hraised, hnone⟩ := raises_settle hp.guarded ht.valid ht.watched hpending
  obtain ⟨-, hraised', hnone'⟩ := raises_settle hp.guarded' hvalid' ht.watched' hpending'
  have hdone : ∀ r c, ¬ Ripe p' (Matching.settle p t).mapping r c :=
    fun r c hripe => hnone r c (hp.symm.ripe (hp.valid hvalid) hripe)
  have hsame : (Matching.settle p' t').mapping = (Matching.settle p t).mapping := by
    rw [ht.mapping] at hraised'
    exact raises_unique hp.guarded' hraised'
      (Relation.ReflTransGen.mono (fun _ _ => hp.raises) _ _ hraised) hnone' hdone
  refine ⟨hsame, ?_, hvalid, fun r c hripe => absurd hripe (hnone r c),
    fun r c hripe => absurd hripe (hnone' r c)⟩
  rw [(step?_eq_none_iff.1 (step?_settle p t)).1, (step?_eq_none_iff.1 (step?_settle p' t')).1]

omit hp in
/-- Changes to logs leave states in step. -/
theorem congr (hs : InStep p p' s s') {t t' : State} (hmapping : t.mapping = s.mapping)
    (hpending : t.pending = s.pending) (hworklist : t.worklist = s.worklist)
    (hmapping' : t'.mapping = s'.mapping) (hpending' : t'.pending = s'.pending)
    (hworklist' : t'.worklist = s'.worklist) : InStep p p' t t' := by
  obtain ⟨h, h', hvalid, hwatched, hwatched'⟩ := hs
  unfold Watched at hwatched hwatched'
  rw [← hmapping, ← hworklist] at hwatched
  rw [← hmapping', ← hworklist'] at hwatched'
  exact ⟨by rw [hmapping', hmapping, h], by rw [hpending', hpending, h'], hmapping ▸ hvalid,
    hwatched, hwatched'⟩

theorem anchorPair (hs : InStep p p' s s') {anchor : Nat × Nat} (h : anchor ∈ p.anchors) :
    InStep p p' (anchorPair p s anchor) (anchorPair p' s' anchor) := by
  obtain ⟨hr, hc⟩ := hp.guarded.lt_sizes (hp.guarded.alike_of_mem_anchors h)
  have hpair := hs.pair? hp hr hc .exact
  unfold Matching.anchorPair
  rw [hs.mapping]
  split
  · exact hs
  · generalize s.pair? p anchor.1 anchor.2 .exact = a at hpair ⊢
    generalize s'.pair? p' anchor.1 anchor.2 .exact = b at hpair ⊢
    cases hpair with
    | none => exact hs
    | some hrel => exact hrel.settle hp

theorem anchorPass (hs : InStep p p' s s') :
    InStep p p' (anchorPass p s) (anchorPass p' s') := by
  unfold Matching.anchorPass
  rw [hp.anchors]
  exact List.foldl_rel hs fun anchor h t t' ht => ht.anchorPair hp h

theorem pairBySignature (hs : InStep p p' s s') (hr : r < p.reference.size) :
    InStep p p' (pairBySignature p s r) (pairBySignature p' s' r) := by
  obtain ⟨u, hu⟩ := hp.guarded.exists_reference_get? hr
  unfold Matching.pairBySignature
  dsimp only
  rw [ask_reference hp.guarded.toOwn (by simpa using hr),
    ask_reference hp.guarded'.toOwn (by simpa [hp.reference.size] using hr), hs.mapping,
    hp.referenceTable, hp.comparisonTable]
  split
  · exact hs
  · rw [hu]
    dsimp only
    have hfree : ∀ c ∈ (p.comparisonTable.nodesWith u).filter
        (fun c => !s.mapping.hasComparison c), c < p.comparison.size := by
      intro c hc
      exact hp.guarded.lt_comparisonSize_of_get?
        (hp.guarded.mem_comparison_nodesWith.1 (List.mem_filter.1 hc).1)
    generalize (p.comparisonTable.nodesWith u).filter (fun c => !s.mapping.hasComparison c) = free
      at hfree ⊢
    have hnoted : InStep p p' (noteChoice s r free) (noteChoice s' r free) := by
      unfold noteChoice
      split
      · exact hs.congr rfl rfl rfl rfl rfl rfl
      · exact hs
    have hfound := rel_findSome? fun c hc => hnoted.pair? hp hr (hfree c hc) .exact
    generalize free.findSome? (fun c => (noteChoice s r free).pair? p r c .exact) = a
      at hfound ⊢
    generalize free.findSome? (fun c => (noteChoice s' r free).pair? p' r c .exact) = b
      at hfound ⊢
    cases hfound with
    | none => exact hnoted
    | some hrel => exact hrel.settle hp

theorem signaturePass (hs : InStep p p' s s') :
    InStep p p' (signaturePass p s) (signaturePass p' s') := by
  unfold Matching.signaturePass
  rw [hp.largestFirst]
  exact List.foldl_rel hs fun r hr t t' ht => ht.pairBySignature hp (Problem.mem_largestFirst.1 hr)

theorem afterSignatures : InStep p p' (afterSignatures p) (afterSignatures p') := by
  have hanchors : InStep p p' (afterAnchors p) (afterAnchors p') :=
    ((initial hp).anchorPass hp).congr rfl rfl rfl rfl rfl rfl
  exact (hanchors.signaturePass hp).congr rfl rfl rfl rfl rfl rfl

end InStep
end Matching
end Concordance
