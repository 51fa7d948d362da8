import Concordance.Proofs.Matching.Growth

/-!
# Trials

A trial is a pair that a pass puts up for acceptance, with the mapping at that
time. The trials of a run are listed here beside the run, function by function,
so that `pairSets` has `setTrials`; where the first accepted one of several
candidates is taken, all of them are listed. Both safeguards of a matching act on
trials only: the check of parents puts up trials of its own, and an inversion
refuses a trial. So if no trial comes from a parent and none is an inversion, the
run is the same without the safeguards.
-/
namespace Concordance.Matching

open Expression

/-- A pair that is put up for acceptance. -/
structure Trial where
  /-- The mapping at the time. -/
  mapping : Mapping
  reference : Nat
  comparison : Nat
  /-- Whether the check of a parent puts it up. -/
  raised : Bool

/-- Trials of a loop, given those of one round. -/
def trialsAlong {α β : Type} (f : β → α → β) (trials : β → α → List Trial) : β → List α → List Trial
  | _, [] => []
  | s, x :: xs => trials s x ++ trialsAlong f trials (f s x) xs

section Trials

variable (p : Problem)

def childTrials (work : State × List Nat) (child : Nat) : List Trial :=
  if work.1.mapping.hasReference child then []
  else (work.2.filter (p.signaturesAgree child)).map fun c => ⟨work.1.mapping, child, c, false⟩

def childrenTrials (s : State) (r c : Nat) : List Trial :=
  let free :=
    ascending ((p.comparison.children c).filter fun child => !s.mapping.hasComparison child)
  if free.isEmpty then []
  else trialsAlong (pairChild p) (childTrials p) (s, free) (ascending (p.reference.children r))

def parentTrials (s : State) (r : Nat) : List Trial :=
  if !p.safeguards.checkParents || s.mapping.hasReference r then []
  else
    match commonParent? p s.mapping (p.reference.children r) with
    | none => []
    | some c =>
      if s.mapping.hasComparison c
          || (p.comparison.children c).length != (p.reference.children r).length then []
      else if p.signaturesAgree r c then [⟨s.mapping, r, c, true⟩] else []

def stepTrials (s : State) : List Trial :=
  match s.pending with
  | r :: rest =>
    match s.mapping.comparisonFor? r with
    | none => []
    | some c => childrenTrials p { s with pending := rest } r c
  | [] =>
    match s.worklist.pop? with
    | none => []
    | some (parent, rest) => parentTrials p { s with worklist := rest } parent

def settleTrials (s : State) : List Trial :=
  match _taken : step? p s with
  | none => []
  | some s' => stepTrials p s ++ settleTrials s'
termination_by s.work
decreasing_by exact work_step? p _taken

def followingTrials (accepted : Option State) : List Trial :=
  match accepted with
  | none => []
  | some s => settleTrials p s

def anchorTrials (s : State) (anchor : Nat × Nat) : List Trial :=
  if s.mapping.hasReference anchor.1 || s.mapping.hasComparison anchor.2 then []
  else ⟨s.mapping, anchor.1, anchor.2, false⟩ ::
    followingTrials p (s.pair? p anchor.1 anchor.2 .exact)

def signatureTrials (s : State) (r : Nat) : List Trial :=
  if s.mapping.hasReference r then []
  else
    let s := s.ask .reference p.referenceTable [r]
    match p.referenceTable.get? r with
    | none => []
    | some signature =>
      let free := (p.comparisonTable.nodesWith signature).filter
        fun c => !s.mapping.hasComparison c
      let s := noteChoice s r free
      free.map (⟨s.mapping, r, ·, false⟩) ++
        followingTrials p (free.findSome? fun c => s.pair? p r c .exact)

def overlapTrials (s : State) (r : Nat) : List Trial :=
  if s.mapping.hasReference r || !isInterior p r then []
  else
    let accepted := (rankedCandidates p s.mapping r).findSome? fun candidate =>
      (s.pair? p r candidate.1 .approximate).map (·, candidate)
    (rankedCandidates p s.mapping r).map (⟨s.mapping, r, ·.1, false⟩) ++
      followingTrials p (accepted.map fun found => found.1.note (.overlapped r found.2.1 found.2.2))

def rootTrials (s : State) : List Trial :=
  if s.mapping.hasReference p.reference.root then []
  else [⟨s.mapping, p.reference.root, p.comparison.root, false⟩]

def setTrials (s : State) (kind : Kind) : List Trial :=
  trialsAlong (fun s sets => s.pair p sets.1 sets.2 .approximate)
    (fun s sets => [⟨s.mapping, sets.1, sets.2, false⟩]) s
    ((unmatchedReferenceSets p s.mapping kind).zip (unmatchedComparisonSets p s.mapping kind))

def connectTrials (s : State) (a : Nat) : List Trial :=
  (connected? p s.mapping a).toList.map fun pair => ⟨s.mapping, pair.1, pair.2, false⟩

def spineTrials (s : State) : List Trial :=
  let kinds := [Kind.necessarySet, .sufficientSet, .propertySet]
  let paired := kinds.foldl (pairSets p) (pairRoots p s)
  rootTrials p s ++ trialsAlong (pairSets p) (setTrials p) (pairRoots p s) kinds ++
    (if p.config.connectSpine then
      trialsAlong (connectSet p) (connectTrials p) paired (referenceSets p) else []) ++
    settleTrials p (spinePairs p s)

def trials : List Trial :=
  trialsAlong (anchorPair p) (anchorTrials p) (.initial p) p.anchors ++
    trialsAlong (pairBySignature p) (signatureTrials p) (afterAnchors p) p.largestFirst ++
    (if p.config.bestEffort then
      trialsAlong (pairByOverlap p) (overlapTrials p) (afterSignatures p) p.reference.postOrder
      else []) ++
    spineTrials p (afterOverlap p)

end Trials

section Loops

variable {α β : Type} {f k : β → α → β} {loopTrials : β → α → List Trial} {xs : List α}
  {G : Trial → Prop} {s : β}

/-- What one round keeps and says about its trials holds of all rounds. -/
theorem forall_trialsAlong {P : β → Prop}
    (hstep : ∀ x ∈ xs, ∀ s, P s → (∀ t ∈ loopTrials s x, G t) ∧ P (f s x)) (hs : P s) :
    ∀ t ∈ trialsAlong f loopTrials s xs, G t := by
  induction xs generalizing s with
  | nil => simp [trialsAlong]
  | cons x xs ih =>
    obtain ⟨hgood, hnext⟩ := hstep x List.mem_cons_self s hs
    intro t ht
    rw [trialsAlong, List.mem_append] at ht
    rcases ht with ht | ht
    · exact hgood t ht
    · exact ih (fun y hy => hstep y (List.mem_cons_of_mem x hy)) hnext t ht

theorem exists_round_of_mem {t : Trial} (ht : t ∈ trialsAlong f loopTrials s xs) :
    ∃ before x after, xs = before ++ x :: after ∧ t ∈ loopTrials (before.foldl f s) x := by
  induction xs generalizing s with
  | nil => simp [trialsAlong] at ht
  | cons x xs ih =>
    rw [trialsAlong, List.mem_append] at ht
    rcases ht with ht | ht
    · exact ⟨[], x, xs, rfl, ht⟩
    · obtain ⟨before, y, after, hsplit, hmem⟩ := ih ht
      exact ⟨x :: before, y, after, by rw [hsplit, List.cons_append], hmem⟩

/-- Loops whose rounds are the same as long as their trials are fine. -/
theorem foldl_eq_of_trials (hstep : ∀ x s, (∀ t ∈ loopTrials s x, G t) → k s x = f s x)
    (h : ∀ t ∈ trialsAlong f loopTrials s xs, G t) : xs.foldl k s = xs.foldl f s := by
  induction xs generalizing s with
  | nil => rfl
  | cons x xs ih =>
    simp only [trialsAlong, List.mem_append] at h
    rw [List.foldl_cons, List.foldl_cons, hstep x s fun t ht => h t (.inl ht)]
    exact ih fun t ht => h t (.inr ht)

end Loops

/-- The same problem with other safeguards. -/
def Problem.withSafeguards (p : Problem) (g : Safeguards) : Problem :=
  { p with safeguards := g }

section WithSafeguards

variable (p : Problem) (g : Safeguards)

@[simp] theorem reference_withSafeguards : (p.withSafeguards g).reference = p.reference := rfl

@[simp] theorem comparison_withSafeguards : (p.withSafeguards g).comparison = p.comparison := rfl

@[simp] theorem referenceTable_withSafeguards :
    (p.withSafeguards g).referenceTable = p.referenceTable := rfl

@[simp] theorem comparisonTable_withSafeguards :
    (p.withSafeguards g).comparisonTable = p.comparisonTable := rfl

@[simp] theorem config_withSafeguards : (p.withSafeguards g).config = p.config := rfl

@[simp] theorem safeguards_withSafeguards : (p.withSafeguards g).safeguards = g := rfl

@[simp] theorem signaturesAgree_withSafeguards :
    (p.withSafeguards g).signaturesAgree = p.signaturesAgree := rfl

@[simp] theorem inverts_withSafeguards : (p.withSafeguards g).inverts = p.inverts := rfl

end WithSafeguards

/-- No safeguard has anything to do with a trial. -/
def Harmless (p : Problem) (t : Trial) : Prop :=
  t.raised = false ∧ p.inverts t.mapping t.reference t.comparison = false

variable {p : Problem} {g : Safeguards} {s s' : State} {r c : Nat} {q : Quality}

theorem pair?_withSafeguards (h : p.inverts s.mapping r c = false) :
    s.pair? (p.withSafeguards g) r c q = s.pair? p r c q := by
  have hadmits : (p.withSafeguards g).admits s.mapping r c = p.admits s.mapping r c := by
    rw [Problem.admits, Problem.admits, inverts_withSafeguards, h, Bool.and_false, Bool.and_false]
    rfl
  unfold State.pair?
  rw [hadmits]
  rfl

theorem pair_withSafeguards (h : p.inverts s.mapping r c = false) :
    s.pair (p.withSafeguards g) r c q = s.pair p r c q := by
  rw [State.pair, State.pair, pair?_withSafeguards h]

theorem findSome?_congr {α β : Type} {f f' : α → Option β} {xs : List α}
    (h : ∀ x ∈ xs, f' x = f x) : xs.findSome? f' = xs.findSome? f := by
  induction xs with
  | nil => rfl
  | cons x xs ih =>
    rw [List.findSome?_cons, List.findSome?_cons, h x List.mem_cons_self,
      ih fun y hy => h y (List.mem_cons_of_mem x hy)]

theorem pairChild_withSafeguards (work : State × List Nat) (child : Nat)
    (h : ∀ t ∈ childTrials p work child, Harmless p t) :
    pairChild (p.withSafeguards g) work child = pairChild p work child := by
  obtain ⟨s, free⟩ := work
  unfold childTrials at h
  unfold pairChild
  dsimp only at h ⊢
  simp only [referenceTable_withSafeguards, comparisonTable_withSafeguards,
    signaturesAgree_withSafeguards]
  split
  · rfl
  · rename_i hopen
    rw [if_neg hopen] at h
    -- the verdicts only depend on the mapping, which asking for signatures leaves as it is
    have hasked : ((s.ask .reference p.referenceTable [child]).ask .comparison p.comparisonTable
        free).mapping = s.mapping := by
      rw [State.mapping_ask, State.mapping_ask]
    generalize (s.ask .reference p.referenceTable [child]).ask .comparison p.comparisonTable free =
      t at hasked
    have hfound : ∀ c ∈ free.filter (p.signaturesAgree child),
        (t.pair? (p.withSafeguards g) child c .exact).map (·, c) =
          (t.pair? p child c .exact).map (·, c) := by
      intro c hc
      rw [pair?_withSafeguards (hasked ▸ (h _ (List.mem_map_of_mem hc)).2)]
    rw [findSome?_congr hfound]

theorem pairChildren_withSafeguards (h : ∀ t ∈ childrenTrials p s r c, Harmless p t) :
    pairChildren (p.withSafeguards g) s r c = pairChildren p s r c := by
  unfold childrenTrials at h
  unfold pairChildren
  dsimp only at h ⊢
  simp only [reference_withSafeguards, comparison_withSafeguards]
  split
  · rename_i hempty
    exact if_pos hempty
  · rename_i hsome
    rw [if_neg hsome] at h
    have hfold := foldl_eq_of_trials (G := Harmless p) (k := pairChild (p.withSafeguards g))
      (fun x work => pairChild_withSafeguards work x) h
    exact (if_neg hsome).trans (congrArg Prod.fst hfold)

theorem checkParent_of_no_trial (hp : p.Own) (h : parentTrials p s r = []) :
    checkParent p s r = s := by
  unfold parentTrials at h
  unfold checkParent
  split
  · rfl
  · rename_i hopen
    rw [if_neg hopen] at h
    split
    · rfl
    · rename_i c hcommon
      obtain ⟨x, hx, y, hy, -⟩ := commonParent?_eq_some hcommon
      rw [hcommon] at h
      dsimp only at h ⊢
      rw [ask_reference hp (by simpa using (lt_size_of_mem_children hx).2),
        ask_comparison hp (by simpa using (lt_size_of_mem_children hy).2)]
      split
      · rfl
      · rename_i hshape
        rw [if_neg hshape] at h
        split
        · rename_i hagree
          rw [if_pos hagree] at h
          cases h
        · rfl

/-- A check of a parent puts up the parent and the common parent of the partners of its children, if
both are unmatched and have the same signature. -/
theorem mem_parentTrials {t : Trial} (h : t ∈ parentTrials p s r) : ∃ c,
    t = ⟨s.mapping, r, c, true⟩ ∧ commonParent? p s.mapping (p.reference.children r) = some c ∧
      s.mapping.comparisonFor? r = none ∧ s.mapping.referenceFor? c = none ∧
      p.signaturesAgree r c = true := by
  unfold parentTrials at h
  split at h
  · cases h
  · rename_i hr
    rw [Bool.or_eq_true, not_or, Bool.not_eq_true (s.mapping.hasReference r),
      Mapping.hasReference_eq_false_iff] at hr
    split at h
    · cases h
    · rename_i c hcommon
      split at h
      · cases h
      · rename_i hc
        rw [Bool.or_eq_true, not_or, Bool.not_eq_true (s.mapping.hasComparison c),
          Mapping.hasComparison_eq_false_iff] at hc
        split at h
        · rename_i hagree
          exact ⟨c, List.mem_singleton.1 h, hcommon, hr.2, hc.1, hagree⟩
        · cases h

section Run

variable (hp : p.Own) (hchecks : p.safeguards.checkParents = true)

include hp hchecks

theorem checkParent_withSafeguards (h : ∀ t ∈ parentTrials p s r, Harmless p t) :
    checkParent (p.withSafeguards g) s r = checkParent p s r := by
  -- a trial of this check is never harmless, so there is none
  have hnone : parentTrials p s r = [] := by
    rw [List.eq_nil_iff_forall_not_mem]
    intro t ht
    obtain ⟨c, rfl, -⟩ := mem_parentTrials ht
    cases (h _ ht).1
  have hnone' : parentTrials (p.withSafeguards g) s r = [] := by
    unfold parentTrials at hnone ⊢
    rw [hchecks] at hnone
    rw [safeguards_withSafeguards]
    cases hg : g.checkParents with
    | true => exact hnone
    | false => rfl
  have hown : (p.withSafeguards g).Own :=
    ⟨hp.referenceTable, hp.comparisonTable, hp.referenceLayout, hp.comparisonLayout⟩
  rw [checkParent_of_no_trial hp hnone, checkParent_of_no_trial hown hnone']

theorem step?_withSafeguards (h : ∀ t ∈ stepTrials p s, Harmless p t) :
    step? (p.withSafeguards g) s = step? p s := by
  unfold stepTrials at h
  unfold step?
  split
  · rename_i r rest hpending
    rw [hpending] at h
    dsimp only at h ⊢
    cases hr : s.mapping.comparisonFor? r with
    | none => rfl
    | some c =>
      rw [hr] at h
      exact congrArg some (pairChildren_withSafeguards h)
  · rename_i hpending
    rw [hpending] at h
    dsimp only at h
    cases hpop : s.worklist.pop? with
    | none => rfl
    | some entry =>
      rw [hpop] at h
      exact congrArg some (checkParent_withSafeguards hp hchecks h)

omit hp hchecks in
theorem settleTrials_of_none (h : step? p s = none) : settleTrials p s = [] := by
  rw [settleTrials]
  split
  · rfl
  · rename_i hstep
    rw [h] at hstep
    cases hstep

omit hp hchecks in
theorem settleTrials_of_some (h : step? p s = some s') :
    settleTrials p s = stepTrials p s ++ settleTrials p s' := by
  rw [settleTrials]
  split
  · rename_i hstep
    rw [h] at hstep
    cases hstep
  · rename_i hstep
    rw [h] at hstep
    rw [Option.some.inj hstep]

theorem settle_withSafeguards (h : ∀ t ∈ settleTrials p s, Harmless p t) :
    settle (p.withSafeguards g) s = settle p s := by
  induction s using settle.induct p with
  | case1 s hnone =>
    rw [settle_of_none hnone, settle_of_none (step?_eq_none_iff.2 (step?_eq_none_iff.1 hnone))]
  | case2 s s' htaken ih =>
    rw [settleTrials_of_some htaken] at h
    have hstep := step?_withSafeguards (g := g) hp hchecks fun t ht =>
      h t (List.mem_append_left _ ht)
    rw [settle_of_some htaken, settle_of_some (hstep.trans htaken)]
    exact ih fun t ht => h t (List.mem_append_right _ ht)

theorem settleAccepted_withSafeguards (rest : State) (accepted : Option State) :
    (∀ t ∈ followingTrials p accepted, Harmless p t) →
    (match accepted with
      | none => rest
      | some t => settle (p.withSafeguards g) t) =
    (match accepted with
      | none => rest
      | some t => settle p t) := by
  intro h
  cases accepted with
  | none => rfl
  | some t => exact settle_withSafeguards hp hchecks h

theorem anchorPair_withSafeguards (s : State) (anchor : Nat × Nat)
    (h : ∀ t ∈ anchorTrials p s anchor, Harmless p t) :
    anchorPair (p.withSafeguards g) s anchor = anchorPair p s anchor := by
  unfold anchorTrials at h
  unfold anchorPair
  split
  · rfl
  · rename_i hopen
    rw [if_neg hopen] at h
    have htrial : p.inverts s.mapping anchor.1 anchor.2 = false := (h _ List.mem_cons_self).2
    rw [pair?_withSafeguards htrial]
    exact settleAccepted_withSafeguards hp hchecks s _ fun t ht => h t (List.mem_cons_of_mem _ ht)

theorem pairBySignature_withSafeguards (s : State) (r : Nat)
    (h : ∀ t ∈ signatureTrials p s r, Harmless p t) :
    pairBySignature (p.withSafeguards g) s r = pairBySignature p s r := by
  unfold signatureTrials at h
  unfold pairBySignature
  simp only [referenceTable_withSafeguards, comparisonTable_withSafeguards]
  split
  · rfl
  · rename_i hopen
    rw [if_neg hopen] at h
    cases hr : p.referenceTable.get? r with
    | none => rfl
    | some signature =>
      rw [hr] at h
      dsimp only at h ⊢
      generalize noteChoice (s.ask .reference p.referenceTable [r]) r _ = t at h ⊢
      have hfound : ∀ c ∈ (p.comparisonTable.nodesWith signature).filter
          (fun c => !(s.ask .reference p.referenceTable [r]).mapping.hasComparison c),
          t.pair? (p.withSafeguards g) r c .exact = t.pair? p r c .exact :=
        fun c hc => pair?_withSafeguards
          (h _ (List.mem_append_left _ (List.mem_map_of_mem hc))).2
      rw [findSome?_congr hfound]
      exact settleAccepted_withSafeguards hp hchecks t _ fun u hu =>
        h u (List.mem_append_right _ hu)

theorem pairByOverlap_withSafeguards (s : State) (r : Nat)
    (h : ∀ t ∈ overlapTrials p s r, Harmless p t) :
    pairByOverlap (p.withSafeguards g) s r = pairByOverlap p s r := by
  have hinterior : isInterior (p.withSafeguards g) r = isInterior p r := rfl
  have hranked : rankedCandidates (p.withSafeguards g) s.mapping r =
    rankedCandidates p s.mapping r := rfl
  unfold overlapTrials at h
  unfold pairByOverlap
  rw [hinterior, hranked]
  split
  · rfl
  · rename_i hopen
    rw [if_neg hopen] at h
    dsimp only at h ⊢
    have hfound : ∀ candidate ∈ rankedCandidates p s.mapping r,
        (s.pair? (p.withSafeguards g) r candidate.1 .approximate).map (·, candidate) =
          (s.pair? p r candidate.1 .approximate).map (·, candidate) := by
      intro candidate hmem
      rw [pair?_withSafeguards (h _ (List.mem_append_left _ (List.mem_map_of_mem hmem))).2]
    rw [findSome?_congr hfound]
    cases haccepted : (rankedCandidates p s.mapping r).findSome? fun candidate =>
        (s.pair? p r candidate.1 .approximate).map (·, candidate) with
    | none => rfl
    | some found =>
      rw [haccepted] at h
      exact settle_withSafeguards hp hchecks fun t ht => h t (List.mem_append_right _ ht)

omit hp hchecks in
theorem pairRoots_withSafeguards (h : ∀ t ∈ rootTrials p s, Harmless p t) :
    pairRoots (p.withSafeguards g) s = pairRoots p s := by
  unfold rootTrials at h
  unfold pairRoots
  simp only [reference_withSafeguards, comparison_withSafeguards]
  split
  · rename_i htaken
    exact if_pos htaken
  · rename_i hopen
    rw [if_neg hopen] at h
    exact (if_neg hopen).trans (pair_withSafeguards (h _ List.mem_cons_self).2)

omit hp hchecks in
theorem pairSets_withSafeguards (s : State) (kind : Kind)
    (h : ∀ t ∈ setTrials p s kind, Harmless p t) :
    pairSets (p.withSafeguards g) s kind = pairSets p s kind :=
  foldl_eq_of_trials (G := Harmless p)
    (fun _ _ htrial => pair_withSafeguards (htrial _ List.mem_cons_self).2) h

omit hp hchecks in
theorem connectSet_withSafeguards (s : State) (a : Nat)
    (h : ∀ t ∈ connectTrials p s a, Harmless p t) :
    connectSet (p.withSafeguards g) s a = connectSet p s a := by
  have hsame : connected? (p.withSafeguards g) s.mapping a = connected? p s.mapping a := rfl
  unfold connectTrials at h
  rw [connectSet_eq, connectSet_eq, hsame]
  cases hconnected : connected? p s.mapping a with
  | none => rfl
  | some pair =>
    rw [hconnected] at h
    exact pair_withSafeguards (h _ List.mem_cons_self).2

theorem spinePass_withSafeguards (h : ∀ t ∈ spineTrials p s, Harmless p t) :
    spinePass (p.withSafeguards g) s = spinePass p s := by
  unfold spineTrials at h
  simp only [List.mem_append] at h
  have hroots := pairRoots_withSafeguards (g := g) fun t ht => h t (.inl (.inl (.inl ht)))
  have hsets := foldl_eq_of_trials (G := Harmless p) (k := pairSets (p.withSafeguards g))
    (fun kind t => pairSets_withSafeguards t kind) fun t ht => h t (.inl (.inl (.inr ht)))
  have hsettle := settle_withSafeguards (g := g) hp hchecks fun t ht => h t (.inr ht)
  have hsame : referenceSets (p.withSafeguards g) = referenceSets p := rfl
  have hpairs : spinePairs (p.withSafeguards g) s = spinePairs p s := by
    unfold spinePairs
    rw [hroots, hsets, config_withSafeguards, hsame]
    dsimp only
    split
    · rename_i hconnect
      rw [if_pos hconnect] at h
      exact foldl_eq_of_trials (G := Harmless p) (fun a t => connectSet_withSafeguards t a)
        fun t ht => h t (.inl (.inr ht))
    · rfl
  show settle (p.withSafeguards g) (spinePairs (p.withSafeguards g) s) = settle p (spinePairs p s)
  rw [hpairs, hsettle]

/-- If no safeguard has anything to do with any trial, the run is the same with other safeguards. -/
theorem run_withSafeguards (h : ∀ t ∈ trials p, Harmless p t) :
    run (p.withSafeguards g) = run p := by
  unfold trials at h
  simp only [List.mem_append] at h
  have hanchorPass : anchorPass (p.withSafeguards g) (.initial p) = anchorPass p (.initial p) :=
    foldl_eq_of_trials (G := Harmless p)
      (fun anchor t => anchorPair_withSafeguards hp hchecks t anchor)
      fun t ht => h t (.inl (.inl (.inl ht)))
  have hanchors : afterAnchors (p.withSafeguards g) = afterAnchors p :=
    congrArg (fun s => s.note (.anchored s.mapping.size)) hanchorPass
  have hsignaturePass : signaturePass (p.withSafeguards g) (afterAnchors p) =
      signaturePass p (afterAnchors p) :=
    foldl_eq_of_trials (G := Harmless p)
      (fun r t => pairBySignature_withSafeguards hp hchecks t r)
      fun t ht => h t (.inl (.inl (.inr ht)))
  have hsignatures : afterSignatures (p.withSafeguards g) = afterSignatures p := by
    unfold afterSignatures
    rw [hanchors, hsignaturePass]
  have hoverlap : afterOverlap (p.withSafeguards g) = afterOverlap p := by
    unfold afterOverlap
    rw [hsignatures, config_withSafeguards]
    split
    · rename_i hbest
      rw [if_pos hbest] at h
      have hpass : overlapPass (p.withSafeguards g) (afterSignatures p) =
          overlapPass p (afterSignatures p) :=
        foldl_eq_of_trials (G := Harmless p)
          (fun r t => pairByOverlap_withSafeguards hp hchecks t r)
          fun t ht => h t (.inl (.inr ht))
      rw [hpass]
    · rfl
  have hspine := spinePass_withSafeguards (g := g) hp hchecks fun t ht => h t (.inr ht)
  unfold run
  rw [hoverlap, hspine]

end Run
end Concordance.Matching
