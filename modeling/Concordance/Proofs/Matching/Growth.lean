import Concordance.Proofs.Matching.Steps

/-!
# Growth of a mapping

All that a matching ever does to its mapping is to accept pairs, one after
another: nodes of one kind, and nodes of one signature if the pair is exact.
Every accepted pair is reported in the log, and nothing else changes the mapping,
so the log tells which mappings a run went through. Pairs are never taken back,
and what every accepted pair keeps holds after each of them. No signature is
missing on the way, because only nodes of the two expressions are asked for.
-/
namespace Concordance

/-- The pair that an event reports as accepted. -/
def Event.pair? : Event → Option (Nat × Nat × Quality)
  | .matched r c q => some (r, c, q)
  | _ => none

namespace Matching

open Expression

variable {p : Problem} {m m' m'' : Mapping} {s s' s'' : State} {r c : Nat} {q : Quality} {e : Event}
  {events events' : List Event}

/-- A mapping goes through an event: the pair that the event reports is accepted, and any other
event leaves the mapping as it is. -/
inductive Follows (p : Problem) : Mapping → Event → Mapping → Prop
  | pair {m m' : Mapping} {r c : Nat} {q : Quality} (hadmits : p.admits m r c = true)
      (halike : q = .exact → p.Alike r c) (hinsert : m.insert? r c q = some m') :
      Follows p m (.matched r c q) m'
  | other {m : Mapping} {e : Event} (hother : e.pair? = none) : Follows p m e m

/-- A mapping goes through the events of a log one after another. -/
inductive Traces (p : Problem) : Mapping → List Event → Mapping → Prop
  | nil (m : Mapping) : Traces p m [] m
  | cons {m m' m'' : Mapping} {e : Event} {events : List Event} (hfirst : Follows p m e m')
      (hrest : Traces p m' events m'') : Traces p m (e :: events) m''

/-- A state follows another one by accepting pairs as the log says, without a gap. -/
structure Grows (p : Problem) (s s' : State) : Prop where
  log : ∃ events, s'.log = s.log ++ events ∧ Traces p s.mapping events s'.mapping
  gap : s'.gap = s.gap

theorem Follows.extension (h : Follows p m e m') : m'.Extends m := by
  cases h with
  | pair _ _ hinsert => exact Mapping.Extends.of_insert? hinsert
  | other _ => exact Mapping.Extends.refl m

namespace Traces

theorem single (h : Follows p m e m') : Traces p m [e] m' :=
  .cons h (.nil m')

theorem trans (h : Traces p m events m') (h' : Traces p m' events' m'') :
    Traces p m (events ++ events') m'' := by
  induction h with
  | nil _ => exact h'
  | cons hfirst _ ih => exact .cons hfirst (ih h')

/-- What every event keeps holds at the end of a log. -/
theorem induction {P : Mapping → Prop} (hstep : ∀ m e m', P m → Follows p m e m' → P m')
    (hm : P m) (h : Traces p m events m') : P m' := by
  induction h with
  | nil _ => exact hm
  | cons hfirst _ ih => exact ih (hstep _ _ _ hm hfirst)

theorem extension (h : Traces p m events m') : m'.Extends m :=
  h.induction (P := fun t => t.Extends m) (fun _ _ _ ht hstep => hstep.extension.trans ht) (.refl m)

end Traces

namespace Grows

theorem refl (s : State) : Grows p s s :=
  ⟨⟨[], by simp, .nil _⟩, rfl⟩

theorem trans (h : Grows p s s') (h' : Grows p s' s'') : Grows p s s'' := by
  obtain ⟨events, hlog, htraces⟩ := h.log
  obtain ⟨events', hlog', htraces'⟩ := h'.log
  exact ⟨⟨events ++ events', by rw [hlog', hlog, List.append_assoc], htraces.trans htraces'⟩,
    h'.gap.trans h.gap⟩

theorem of_eq (hmapping : s'.mapping = s.mapping) (hlog : s'.log = s.log) (hgap : s'.gap = s.gap) :
    Grows p s s' :=
  ⟨⟨[], by simp [hlog], hmapping ▸ .nil _⟩, hgap⟩

theorem note (s : State) (he : e.pair? = none) : Grows p s (s.note e) :=
  ⟨⟨[e], rfl, .single (.other he)⟩, rfl⟩

theorem extension (h : Grows p s s') : s'.mapping.Extends s.mapping := by
  obtain ⟨events, -, htraces⟩ := h.log
  exact htraces.extension

/-- What every step of a loop does, the loop does. -/
theorem foldl {α : Type} (f : State → α → State) (xs : List α)
    (hstep : ∀ x ∈ xs, ∀ s, Grows p s (f s x)) (s : State) : Grows p s (xs.foldl f s) := by
  refine List.foldlRecOn (motive := Grows p s) xs f (refl s) ?_
  intro t ht x hx
  exact ht.trans (hstep x hx t)

end Grows

namespace State

theorem grows_pair? (halike : q = .exact → p.Alike r c) (h : s.pair? p r c q = some s') :
    Grows p s s' := by
  obtain ⟨hadmits, hinsert, -, hgap⟩ := pair?_eq_some h
  exact ⟨⟨_, log_pair? h, .single (.pair hadmits halike hinsert)⟩, hgap⟩

theorem grows_pair (halike : q = .exact → p.Alike r c) : Grows p s (s.pair p r c q) := by
  rcases pair_cases p s r c q with hsame | hpair
  · rw [hsame]
    exact .refl s
  · exact grows_pair? halike hpair

end State

section Propagation

variable (hp : p.Own)

include hp

theorem grows_pairChildren : Grows p s (pairChildren p s r c) :=
  pairChildren_induction hp (P := fun t => Grows p s t)
    (fun _ _ _ _ ht halike hpair => ht.trans (State.grows_pair? (fun _ => halike) hpair)) (.refl s)

theorem grows_checkParent : Grows p s (checkParent p s r) := by
  rcases checkParent_cases hp (s := s) (r := r) with hsame | ⟨c, -, -, halike, hpair⟩
  · rw [hsame]
    exact .refl s
  · exact State.grows_pair? (fun _ => halike) hpair

theorem grows_step? (h : step? p s = some s') : Grows p s s' := by
  rcases step?_cases h with ⟨r, rest, -, -, rfl⟩ | ⟨r, c, rest, -, -, rfl⟩ | ⟨r, rest, -, -, rfl⟩
  · exact .of_eq rfl rfl rfl
  · have hrest : Grows p s { s with pending := rest } := .of_eq rfl rfl rfl
    exact hrest.trans (grows_pairChildren hp)
  · have hrest : Grows p s { s with worklist := rest } := .of_eq rfl rfl rfl
    exact hrest.trans (grows_checkParent hp)

end Propagation

theorem grows_settle (hp : p.Own) (s : State) : Grows p s (settle p s) :=
  (settle_induction (P := fun t => Grows p s t)
    (fun _ _ h hstep => h.trans (grows_step? hp hstep)) (.refl s)).1

section Passes

variable (hp : p.Own)

include hp

theorem grows_anchorPair {anchor : Nat × Nat} (h : anchor ∈ p.anchors) :
    Grows p s (anchorPair p s anchor) := by
  rcases anchorPair_cases s anchor with hsame | ⟨s', hpair, hnext⟩
  · rw [hsame]
    exact .refl s
  · rw [hnext]
    exact (State.grows_pair? (fun _ => hp.alike_of_mem_anchors h) hpair).trans (grows_settle hp s')

theorem grows_anchorPass (s : State) : Grows p s (anchorPass p s) :=
  .foldl _ _ (fun _ h _ => grows_anchorPair hp h) s

omit hp in
theorem grows_noteChoice (s : State) (r : Nat) (free : List Nat) :
    Grows p s (noteChoice s r free) := by
  unfold noteChoice
  split
  · exact .note s rfl
  · exact .refl s

theorem grows_pairBySignature (hr : r < p.reference.size) :
    Grows p s (pairBySignature p s r) := by
  obtain ⟨free, ⟨-, hsame⟩ | ⟨c, s', halike, hpair, hnext⟩⟩ := pairBySignature_cases hp s hr
  · rw [hsame]
    exact grows_noteChoice s r free
  · have hpaired : Grows p (noteChoice s r free) s' := State.grows_pair? (fun _ => halike) hpair
    rw [hnext]
    exact ((grows_noteChoice s r free).trans hpaired).trans (grows_settle hp s')

theorem grows_signaturePass (s : State) : Grows p s (signaturePass p s) :=
  .foldl _ _ (fun _ h _ => grows_pairBySignature hp (Problem.mem_largestFirst.1 h)) s

theorem grows_pairByOverlap : Grows p s (pairByOverlap p s r) := by
  rcases pairByOverlap_cases p s r with hsame | ⟨c, overlap, s', -, hpair, hnext⟩
  · rw [hsame]
    exact .refl s
  · rw [hnext]
    have hnote : Grows p s' (s'.note (.overlapped r c overlap)) := .note s' rfl
    exact ((State.grows_pair? (by simp) hpair).trans hnote).trans (grows_settle hp _)

theorem grows_overlapPass (s : State) : Grows p s (overlapPass p s) :=
  .foldl _ _ (fun _ _ _ => grows_pairByOverlap hp) s

omit hp in
theorem grows_pairRoots : Grows p s (pairRoots p s) := by
  rcases pairRoots_cases p s with hsame | hpair
  · rw [hsame]
    exact .refl s
  · exact State.grows_pair? (by simp) hpair

omit hp in
theorem grows_pairSets (s : State) (kind : Kind) : Grows p s (pairSets p s kind) :=
  .foldl _ _ (fun _ _ _ => State.grows_pair (by simp)) s

omit hp in
theorem grows_connectSet (s : State) (a : Nat) : Grows p s (connectSet p s a) := by
  rw [connectSet_eq]
  cases connected? p s.mapping a with
  | none => exact .refl s
  | some pair => exact State.grows_pair (by simp)

omit hp in
theorem grows_spinePairs_of_pairRoots (s : State) : Grows p (pairRoots p s) (spinePairs p s) :=
  spinePairs_induction (P := fun t => Grows p (pairRoots p s) t)
    (fun _ _ _ ht _ => ht.trans (State.grows_pair (by simp)))
    (fun _ _ _ _ _ ht _ => ht.trans (State.grows_pair (by simp))) (.refl _)

theorem grows_spinePass_of_pairRoots (s : State) : Grows p (pairRoots p s) (spinePass p s) :=
  (grows_spinePairs_of_pairRoots s).trans (grows_settle hp _)

theorem grows_spinePass (s : State) : Grows p s (spinePass p s) :=
  grows_pairRoots.trans (grows_spinePass_of_pairRoots hp s)

theorem grows_afterSignatures : Grows p (.initial p) (afterSignatures p) := by
  have hanchors : Grows p (.initial p) (afterAnchors p) :=
    (grows_anchorPass hp _).trans (.note _ rfl)
  exact (hanchors.trans (grows_signaturePass hp _)).trans (.note _ rfl)

theorem grows_afterOverlap : Grows p (afterSignatures p) (afterOverlap p) := by
  unfold afterOverlap
  split
  · exact (grows_overlapPass hp _).trans (.note _ rfl)
  · exact .refl _

/-- A run starts without pairs and does nothing but accept pairs. -/
theorem grows_run : Grows p (.initial p) (run p) :=
  ((grows_afterSignatures hp).trans (grows_afterOverlap hp)).trans
    ((grows_spinePass hp _).trans (.note _ rfl))

/-- No signature is missing from the tables of the expressions themselves. -/
theorem outcome_eq : outcome p = .ok ((run p).mapping, (run p).log) := by
  have hgap : (run p).gap = none := (grows_run hp).gap
  unfold outcome
  dsimp only
  rw [hgap]

end Passes

/-- Pairs are between nodes of one kind, and exact ones between nodes of one signature. -/
structure Fair (p : Problem) (m : Mapping) : Prop where
  valid : m.Valid p.reference.size p.comparison.size
  kinds : ∀ r c, m.comparisonFor? r = some c → p.reference.kind? r = p.comparison.kind? c
  exact : ∀ r c, m.correspondence? r = some ⟨c, .exact⟩ → p.Alike r c

namespace Fair

theorem empty (p : Problem) : Fair p (.empty p.reference.size p.comparison.size) where
  valid := .empty
  kinds r c h := by
    rw [Mapping.comparisonFor?_empty] at h
    simp at h
  exact r c h := by
    rw [Mapping.correspondence?_empty] at h
    simp at h

theorem of_follows (hm : Fair p m) (h : Follows p m e m') : Fair p m' := by
  cases h with
  | pair hadmits halike hinsert =>
    refine ⟨hm.valid.insert hinsert, fun x y hxy => ?_, fun x y hxy => ?_⟩
    · rw [Mapping.comparisonFor?_insert? hinsert] at hxy
      split at hxy
      · rename_i hx
        rw [Problem.admits, Bool.and_eq_true, Problem.kindsAgree, beq_iff_eq] at hadmits
        rw [hx, ← Option.some.inj hxy]
        exact hadmits.1
      · exact hm.kinds x y hxy
    · rw [Mapping.correspondence?_insert? hinsert] at hxy
      split at hxy
      · rename_i hx
        obtain ⟨rfl, hq⟩ := Correspondence.mk.inj (Option.some.inj hxy)
        rw [hx]
        exact halike hq
      · exact hm.exact x y hxy
  | other _ => exact hm

theorem grows (hs : Fair p s.mapping) (h : Grows p s s') : Fair p s'.mapping := by
  obtain ⟨events, -, htraces⟩ := h.log
  exact htraces.induction (fun _ _ _ => of_follows) hs

end Fair

theorem fair_run (hp : p.Own) : Fair p (run p).mapping :=
  (Fair.empty p).grows (grows_run hp)

end Matching
end Concordance
