import Concordance.Proofs.Matching.Refusal

/-!
# What the settings change

The exact passes do not look at the settings. The passes behind them propose
approximate pairs only, and propagation has nothing to add to these. So the
settings decide on approximate pairs and leave the exact ones as they are,
whatever the signatures of the expressions are.
-/
namespace Concordance

/-- All that a mapping adds to another one are approximate pairs. -/
structure Mapping.AddsApproximate (m' m : Mapping) : Prop where
  extension : m'.Extends m
  approximate : ∀ r found, m'.correspondence? r = some found → m.correspondence? r = none →
    found.quality = .approximate

namespace Mapping.AddsApproximate

variable {m m' m'' : Mapping} {r c : Nat}

theorem refl (m : Mapping) : m.AddsApproximate m where
  extension := .refl m
  approximate r found h hnone := by
    simp [hnone] at h

theorem trans (h' : m''.AddsApproximate m') (h : m'.AddsApproximate m) : m''.AddsApproximate m where
  extension := h'.extension.trans h.extension
  approximate r found hr hnone := by
    cases hr' : m'.correspondence? r with
    | none => exact h'.approximate r found hr hr'
    | some found' =>
      have heq := h'.extension r found' hr'
      rw [hr] at heq
      rw [Option.some.inj heq]
      exact h.approximate r found' hr' hnone

theorem of_insert? (h : m.insert? r c .approximate = some m') : m'.AddsApproximate m where
  extension := .of_insert? h
  approximate x found hx hnone := by
    rw [correspondence?_insert? h] at hx
    split at hx
    · rw [← Option.some.inj hx]
    · simp [hnone] at hx

theorem exact_iff (h : m'.AddsApproximate m) :
    m'.correspondence? r = some ⟨c, .exact⟩ ↔ m.correspondence? r = some ⟨c, .exact⟩ := by
  refine ⟨fun hr => ?_, h.extension r _⟩
  cases hr' : m.correspondence? r with
  | none =>
    have := h.approximate r _ hr hr'
    simp at this
  | some found =>
    rw [← hr, h.extension r found hr']

end Mapping.AddsApproximate

namespace Matching

open Expression

variable {p : Problem} {m m' : Mapping} {s s' : State} {r c : Nat}

/-- The same problem under other settings. -/
def Problem.withConfig (p : Problem) (config : Config) : Problem :=
  { p with config := config }

section WithConfig

variable (p : Problem) (config : Config)

theorem settle_withConfig (s : State) : settle (p.withConfig config) s = settle p s := by
  have hstep : ∀ s, step? (p.withConfig config) s = step? p s := fun s => rfl
  induction s using settle.induct p with
  | case1 s hnone => rw [settle_of_none hnone, settle_of_none ((hstep s).trans hnone)]
  | case2 s s' htaken ih =>
    rw [settle_of_some htaken, settle_of_some ((hstep s).trans htaken), ih]

/-- The exact passes do not look at the settings. -/
theorem afterSignatures_withConfig : afterSignatures (p.withConfig config) = afterSignatures p := by
  have hanchor : anchorPair (p.withConfig config) = anchorPair p := by
    funext s anchor
    unfold anchorPair
    simp only [settle_withConfig]
    rfl
  have hsignature : pairBySignature (p.withConfig config) = pairBySignature p := by
    funext s r
    unfold pairBySignature
    simp only [settle_withConfig]
    rfl
  unfold afterSignatures afterAnchors anchorPass signaturePass
  rw [hanchor, hsignature]
  rfl

end WithConfig

/-- After the exact passes all alike nodes that are left over are refused, and only approximate
pairs are added. -/
structure Finishing (p : Problem) (m m' : Mapping) : Prop where
  fair : Fair p m'
  spent : Spent p m'
  added : m'.AddsApproximate m

namespace Finishing

theorem pair? (hs : Finishing p m s.mapping) (h : s.pair? p r c .approximate = some s') :
    Finishing p m s'.mapping := by
  have hfair := hs.fair.grows (State.grows_pair? (by simp) h)
  obtain ⟨-, hinsert, -, -⟩ := State.pair?_eq_some h
  exact ⟨hfair, hs.spent.of_extends hs.fair.valid hfair.valid (.of_insert? hinsert),
    (Mapping.AddsApproximate.of_insert? hinsert).trans hs.added⟩

theorem pair (hs : Finishing p m s.mapping) (r c : Nat) :
    Finishing p m (s.pair p r c .approximate).mapping := by
  rcases State.pair_cases p s r c .approximate with hsame | hpair
  · rwa [hsame]
  · exact hs.pair? hpair

theorem settle (hp : p.Own) (hs : Finishing p m s.mapping) :
    Finishing p m (settle p s).mapping := by
  rwa [mapping_settle_of_spent hp hs.spent]

theorem pairByOverlap (hp : p.Own) (hs : Finishing p m s.mapping) :
    Finishing p m (pairByOverlap p s r).mapping := by
  rcases pairByOverlap_cases p s r with hsame | ⟨c, overlap, s', -, hpair, hnext⟩
  · rwa [hsame]
  · have hpaired := hs.pair? hpair
    rw [hnext]
    exact settle (s := s'.note _) hp hpaired

theorem pairRoots (hs : Finishing p m s.mapping) : Finishing p m (pairRoots p s).mapping := by
  rcases pairRoots_cases p s with hsame | hpair
  · rwa [hsame]
  · exact hs.pair? hpair

theorem spinePairs (hs : Finishing p m s.mapping) : Finishing p m (spinePairs p s).mapping :=
  spinePairs_induction (P := fun t => Finishing p m t.mapping)
    (fun _ x y ht _ => pair ht x y) (fun _ _ _ x y ht _ => pair ht x y) hs.pairRoots

end Finishing

section Passes

variable (hp : p.Own)

include hp

theorem finishing_afterSignatures :
    Finishing p (afterSignatures p).mapping (afterSignatures p).mapping :=
  ⟨(Fair.empty p).grows (grows_afterSignatures hp), spent_afterSignatures hp, .refl _⟩

theorem finishing_afterOverlap :
    Finishing p (afterSignatures p).mapping (afterOverlap p).mapping := by
  have hs := finishing_afterSignatures hp
  unfold afterOverlap
  split
  · exact List.foldlRecOn
      (motive := fun t : State => Finishing p (afterSignatures p).mapping t.mapping)
      p.reference.postOrder _ hs fun t ht r _ => ht.pairByOverlap hp
  · exact hs

/-- Propagation adds nothing to the pairs of the spine pass. -/
theorem mapping_run : (run p).mapping = (spinePairs p (afterOverlap p)).mapping := by
  have hspine := (finishing_afterOverlap hp).spinePairs
  exact mapping_settle_of_spent hp hspine.spent

theorem finishing_run : Finishing p (afterOverlap p).mapping (run p).mapping := by
  have hs := finishing_afterOverlap hp
  have hstart : Finishing p (afterOverlap p).mapping (afterOverlap p).mapping :=
    ⟨hs.fair, hs.spent, .refl _⟩
  rw [mapping_run hp]
  exact hstart.spinePairs

theorem addsApproximate_run : (run p).mapping.AddsApproximate (afterSignatures p).mapping :=
  (finishing_run hp).added.trans (finishing_afterOverlap hp).added

end Passes

/-- For all expressions and any two settings, the two mappings have the same exact pairs: behind the
exact passes, which are the same for both, every pass adds approximate pairs only. -/
theorem exact_pairs_ignore_settings (reference comparison : Expression) (config config' : Config) :
    (∀ r c, (Mapping.ofExpressions reference comparison config).correspondence? r =
        some ⟨c, .exact⟩ ↔
      (Mapping.ofExpressions reference comparison config').correspondence? r = some ⟨c, .exact⟩) ∧
    (afterOverlap (.ofExpressions reference comparison config)).mapping.AddsApproximate
      (afterSignatures (.ofExpressions reference comparison config)).mapping ∧
    (Mapping.ofExpressions reference comparison config).AddsApproximate
      (afterOverlap (.ofExpressions reference comparison config)).mapping := by
  have hoverlap : ∀ config,
      (afterOverlap (.ofExpressions reference comparison config)).mapping.AddsApproximate
        (afterSignatures (.ofExpressions reference comparison config)).mapping := fun config =>
    (finishing_afterOverlap (Problem.own_ofExpressions reference comparison config)).added
  have hrun : ∀ config, (Mapping.ofExpressions reference comparison config).AddsApproximate
      (afterOverlap (.ofExpressions reference comparison config)).mapping := fun config =>
    (finishing_run (Problem.own_ofExpressions reference comparison config)).added
  refine ⟨fun r c => ?_, hoverlap config, hrun config⟩
  have hsame : afterSignatures (.ofExpressions reference comparison config') =
      afterSignatures (.ofExpressions reference comparison config) :=
    afterSignatures_withConfig (.ofExpressions reference comparison config) config'
  rw [((hrun config).trans (hoverlap config)).exact_iff,
    ((hrun config').trans (hoverlap config')).exact_iff, hsame]

end Matching
end Concordance
