import Concordance.Proofs.Matching.Trials

/-!
# Accepted pairs are trials

Pairs are accepted by one function, which also reports them in the log. Whatever
a run reports was put up for acceptance: for every reported pair there is a trial
of the same two nodes, and a state with the mapping of the trial accepts them.
-/
namespace Concordance.Matching

open Expression

variable {p : Problem} {s s' s'' : State} {r c : Nat} {q : Quality} {e : Event}
  {found found' : List Trial}

/-- All pairs that are accepted on the way from one state to another are among the trials. -/
def Tried (p : Problem) (found : List Trial) (s s' : State) : Prop :=
  ∃ events, s'.log = s.log ++ events ∧ ∀ r c q, .matched r c q ∈ events →
    ∃ t ∈ found, t.reference = r ∧ t.comparison = c ∧
      ∃ u u' : State, u.mapping = t.mapping ∧ u.pair? p r c q = some u'

@[simp] theorem State.log_ask (s : State) (side : Side) (table : SignatureTable)
    (nodes : List Nat) : (s.ask side table nodes).log = s.log := by
  unfold ask
  split <;> rfl

theorem State.ask_ask (s : State) (table table' : SignatureTable) (xs ys : List Nat) :
    ((s.ask .reference table xs).ask .comparison table' ys).mapping = s.mapping ∧
      ((s.ask .reference table xs).ask .comparison table' ys).log = s.log := by
  simp only [mapping_ask, log_ask, and_self]

namespace Tried

theorem of_log_eq (h : s'.log = s.log) : Tried p found s s' :=
  ⟨[], by rw [h, List.append_nil], fun _ _ _ hmem => absurd hmem List.not_mem_nil⟩

theorem refl (s : State) : Tried p found s s :=
  of_log_eq rfl

theorem note (s : State) (he : e.pair? = none) : Tried p found s (s.note e) := by
  refine ⟨[e], rfl, fun r c q hmem => ?_⟩
  obtain rfl := List.mem_singleton.1 hmem
  cases he

theorem trans (h : Tried p found s s') (h' : Tried p found' s' s'') :
    Tried p (found ++ found') s s'' := by
  obtain ⟨events, hlog, hmatched⟩ := h
  obtain ⟨events', hlog', hmatched'⟩ := h'
  refine ⟨events ++ events', by rw [hlog', hlog, List.append_assoc], fun r c q hmem => ?_⟩
  rcases List.mem_append.1 hmem with hmem | hmem
  · obtain ⟨t, ht, htried⟩ := hmatched r c q hmem
    exact ⟨t, List.mem_append_left _ ht, htried⟩
  · obtain ⟨t, ht, htried⟩ := hmatched' r c q hmem
    exact ⟨t, List.mem_append_right _ ht, htried⟩

theorem mono (h : Tried p found s s') (hsub : found ⊆ found') : Tried p found' s s' := by
  obtain ⟨events, hlog, hmatched⟩ := h
  refine ⟨events, hlog, fun r c q hmem => ?_⟩
  obtain ⟨t, ht, htried⟩ := hmatched r c q hmem
  exact ⟨t, hsub ht, htried⟩

theorem pair? (raised : Bool) (ht : ⟨s.mapping, r, c, raised⟩ ∈ found)
    (h : s.pair? p r c q = some s') : Tried p found s s' := by
  refine ⟨_, State.log_pair? h, fun x y q' hmem => ?_⟩
  obtain ⟨rfl, rfl, rfl⟩ := Event.matched.inj (List.mem_singleton.1 hmem)
  exact ⟨_, ht, rfl, rfl, s, s', rfl, h⟩

theorem pair (raised : Bool) (ht : ⟨s.mapping, r, c, raised⟩ ∈ found) (q : Quality) :
    Tried p found s (s.pair p r c q) := by
  rcases State.pair_cases p s r c q with hsame | hpair
  · rw [hsame]
    exact refl s
  · exact pair? raised ht hpair

/-- What holds of every round holds of a loop, whatever it carries beside the state. -/
theorem foldl {α β : Type} {f : β → α → β} {loopTrials : β → α → List Trial} (state : β → State)
    (hstep : ∀ s x, Tried p (loopTrials s x) (state s) (state (f s x))) (s : β) (xs : List α) :
    Tried p (trialsAlong f loopTrials s xs) (state s) (state (xs.foldl f s)) := by
  induction xs generalizing s with
  | nil => exact refl _
  | cons x xs ih => exact (hstep s x).trans (ih (f s x))

end Tried

theorem tried_pairChild (work : State × List Nat) (child : Nat) :
    Tried p (childTrials p work child) work.1 (pairChild p work child).1 := by
  obtain ⟨s, free⟩ := work
  unfold childTrials pairChild
  dsimp only
  split
  · exact .refl s
  · obtain ⟨hasked, hlog⟩ := s.ask_ask p.referenceTable p.comparisonTable [child] free
    generalize (s.ask .reference p.referenceTable [child]).ask .comparison p.comparisonTable free =
      t at hasked hlog
    have hsame : Tried p [] s t := .of_log_eq hlog
    split
    · rename_i s' c hfound
      obtain ⟨y, hy, hpair⟩ := List.exists_of_findSome?_eq_some hfound
      obtain ⟨u, hu, heq⟩ := Option.map_eq_some_iff.1 hpair
      obtain ⟨rfl, rfl⟩ := Prod.mk.inj heq
      refine hsame.trans (.pair? false ?_ hu)
      rw [hasked]
      exact List.mem_map_of_mem hy
    · exact .of_log_eq hlog

theorem tried_pairChildren : Tried p (childrenTrials p s r c) s (pairChildren p s r c) := by
  unfold childrenTrials pairChildren
  dsimp only
  split
  · exact .refl s
  · exact Tried.foldl Prod.fst tried_pairChild _ _

theorem tried_checkParent : Tried p (parentTrials p s r) s (checkParent p s r) := by
  unfold parentTrials checkParent
  split
  · exact .refl s
  · cases commonParent? p s.mapping (p.reference.children r) with
    | none => exact .refl s
    | some c =>
      dsimp only
      split
      · exact .refl s
      · obtain ⟨hasked, hlog⟩ := s.ask_ask p.referenceTable p.comparisonTable [r] [c]
        generalize (s.ask .reference p.referenceTable [r]).ask .comparison p.comparisonTable [c] =
          t at hasked hlog
        have hsame : Tried p [] s t := .of_log_eq hlog
        split
        · refine hsame.trans (.pair true ?_ .exact)
          rw [hasked]
          exact List.mem_singleton_self _
        · exact hsame

theorem tried_step? (h : step? p s = some s') : Tried p (stepTrials p s) s s' := by
  unfold stepTrials
  rcases step?_cases h with ⟨r, rest, hpending, hr, rfl⟩ | ⟨r, c, rest, hpending, hr, rfl⟩ |
    ⟨r, rest, hpending, hpop, rfl⟩
  · exact .of_log_eq rfl
  · rw [hpending]
    dsimp only
    rw [hr]
    have hrest : Tried p [] s { s with pending := rest } := .of_log_eq rfl
    exact hrest.trans tried_pairChildren
  · rw [hpending]
    dsimp only
    rw [hpop]
    have hrest : Tried p [] s { s with worklist := rest } := .of_log_eq rfl
    exact hrest.trans tried_checkParent

theorem tried_settle (s : State) : Tried p (settleTrials p s) s (settle p s) := by
  induction s using settle.induct p with
  | case1 s hnone =>
    rw [settle_of_none hnone]
    exact .refl s
  | case2 s s' htaken ih =>
    rw [settle_of_some htaken, settleTrials_of_some htaken]
    exact (tried_step? htaken).trans ih

theorem tried_anchorPair (s : State) (anchor : Nat × Nat) :
    Tried p (anchorTrials p s anchor) s (anchorPair p s anchor) := by
  unfold anchorTrials anchorPair
  split
  · exact .refl s
  · cases hpair : s.pair? p anchor.1 anchor.2 .exact with
    | none => exact .refl s
    | some s' =>
      have hfirst : Tried p [⟨s.mapping, anchor.1, anchor.2, false⟩] s s' :=
        .pair? false List.mem_cons_self hpair
      exact hfirst.trans (tried_settle s')

theorem tried_noteChoice (s : State) (r : Nat) (free : List Nat) :
    Tried p found s (noteChoice s r free) := by
  unfold noteChoice
  split
  · exact .note s rfl
  · exact .refl s

theorem tried_pairBySignature (s : State) (r : Nat) :
    Tried p (signatureTrials p s r) s (pairBySignature p s r) := by
  unfold signatureTrials pairBySignature
  split
  · exact .refl s
  · dsimp only
    have hasked : Tried p [] s (s.ask .reference p.referenceTable [r]) :=
      .of_log_eq (State.log_ask s _ _ _)
    cases p.referenceTable.get? r with
    | none => exact hasked
    | some signature =>
      dsimp only
      generalize (p.comparisonTable.nodesWith signature).filter _ = free
      have hnoted : Tried p [] s (noteChoice (s.ask .reference p.referenceTable [r]) r free) :=
        hasked.trans (tried_noteChoice _ r free)
      generalize noteChoice (s.ask .reference p.referenceTable [r]) r free = t at hnoted
      cases hfound : free.findSome? fun c => t.pair? p r c .exact with
      | none => exact hnoted.mono (List.nil_subset _)
      | some s' =>
        obtain ⟨c, hc, hpair⟩ := List.exists_of_findSome?_eq_some hfound
        have hfirst : Tried p (free.map (⟨t.mapping, r, ·, false⟩)) t s' :=
          .pair? false (List.mem_map_of_mem hc) hpair
        exact hnoted.trans (hfirst.trans (tried_settle s'))

theorem tried_pairByOverlap (s : State) (r : Nat) :
    Tried p (overlapTrials p s r) s (pairByOverlap p s r) := by
  unfold overlapTrials pairByOverlap
  split
  · exact .refl s
  · dsimp only
    cases hfound : (rankedCandidates p s.mapping r).findSome? fun candidate =>
        (s.pair? p r candidate.1 .approximate).map (·, candidate) with
    | none => exact .refl s
    | some found =>
      obtain ⟨candidate, hcandidate, hpair⟩ := List.exists_of_findSome?_eq_some hfound
      obtain ⟨u, hu, rfl⟩ := Option.map_eq_some_iff.1 hpair
      have hfirst : Tried p ((rankedCandidates p s.mapping r).map (⟨s.mapping, r, ·.1, false⟩)) s u :=
        .pair? false (List.mem_map_of_mem hcandidate) hu
      have hnote : Tried p [] u (u.note (.overlapped r candidate.1 candidate.2)) := .note u rfl
      exact hfirst.trans (hnote.trans (tried_settle _))

theorem tried_pairRoots (s : State) : Tried p (rootTrials p s) s (pairRoots p s) := by
  unfold rootTrials pairRoots
  split
  · exact .refl s
  · exact .pair false (List.mem_singleton_self _) .approximate

theorem tried_pairSets (s : State) (kind : Kind) :
    Tried p (setTrials p s kind) s (pairSets p s kind) :=
  Tried.foldl id (fun _ _ => .pair false (List.mem_singleton_self _) .approximate) s _

theorem tried_connectSet (s : State) (a : Nat) :
    Tried p (connectTrials p s a) s (connectSet p s a) := by
  rw [connectSet_eq, connectTrials]
  cases connected? p s.mapping a with
  | none => exact .refl s
  | some pair => exact .pair false (List.mem_singleton_self _) .approximate

theorem tried_spinePass (s : State) : Tried p (spineTrials p s) s (spinePass p s) := by
  have hpaired := (tried_pairRoots s).trans
    (Tried.foldl id tried_pairSets (pairRoots p s)
      [Kind.necessarySet, .sufficientSet, .propertySet])
  refine Tried.trans ?_ (tried_settle (spinePairs p s))
  unfold spinePairs
  dsimp only
  split
  · exact hpaired.trans (Tried.foldl id tried_connectSet _ _)
  · rw [List.append_nil]
    exact hpaired

/-- Every pair that a run accepts is one of its trials. -/
theorem tried_run : Tried p (trials p) (.initial p) (run p) := by
  have hanchors : Tried p (trialsAlong (anchorPair p) (anchorTrials p) (.initial p) p.anchors)
      (.initial p) (anchorPass p (.initial p)) := .foldl id tried_anchorPair _ _
  have hanchored : Tried p [] (anchorPass p (.initial p)) (afterAnchors p) := .note _ rfl
  have hsignatures : Tried p
      (trialsAlong (pairBySignature p) (signatureTrials p) (afterAnchors p) p.largestFirst)
      (afterAnchors p) (signaturePass p (afterAnchors p)) := .foldl id tried_pairBySignature _ _
  have hsettled : Tried p [] (signaturePass p (afterAnchors p)) (afterSignatures p) := .note _ rfl
  have hoverlap : Tried p (if p.config.bestEffort then
      trialsAlong (pairByOverlap p) (overlapTrials p) (afterSignatures p) p.reference.postOrder
      else []) (afterSignatures p) (afterOverlap p) := by
    unfold afterOverlap
    split
    · have hpass : Tried p
          (trialsAlong (pairByOverlap p) (overlapTrials p) (afterSignatures p) p.reference.postOrder)
          (afterSignatures p) (overlapPass p (afterSignatures p)) :=
        .foldl id tried_pairByOverlap _ _
      have hnoted : Tried p [] (overlapPass p (afterSignatures p)) _ :=
        .note _ (e := .bestEffortDone (overlapPass p (afterSignatures p)).mapping.approximateCount)
          rfl
      exact (hpass.trans hnoted).mono (by rw [List.append_nil]; exact List.Subset.refl _)
    · exact .refl _
  have hspine : Tried p [] (spinePass p (afterOverlap p)) (run p) := .note _ rfl
  have hall := ((((hanchors.trans hanchored).trans (hsignatures.trans hsettled)).trans
    hoverlap).trans (tried_spinePass (afterOverlap p))).trans hspine
  simp only [List.append_nil] at hall
  exact hall

end Concordance.Matching
