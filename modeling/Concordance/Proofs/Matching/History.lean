import Concordance.Proofs.Matching.Completion
import Concordance.Proofs.Matching.Crossing

/-!
# The mappings that a run goes through

The log of a run reports every accepted pair, so replaying the beginning of a log
gives a mapping that the run had on its way. All these mappings are safe: they
are partial bijections between nodes of one kind, and no ancestor is paired with
a descendant of its descendant's partner. A new pair is compared only with the
pairs above its own nodes. That is enough, because the pairs that it could cross
have a node above it on one of the two sides.
-/
namespace Concordance

namespace Mapping

/-- The mapping after an event: with the pair that the event reports, unless it is refused. -/
def follow? (m : Mapping) (e : Event) : Option Mapping :=
  match e.pair? with
  | none => some m
  | some (r, c, q) => m.insert? r c q

/-- The mapping after the events of a log, if none of the pairs that they report is refused. -/
def replay? (m : Mapping) (events : List Event) : Option Mapping :=
  events.foldlM follow? m

/-- A mapping that is a partial bijection between nodes of one kind and turns no ancestor into a
descendant. -/
structure Safe (m : Mapping) (reference comparison : Expression) : Prop where
  valid : m.Valid reference.size comparison.size
  kinds : ∀ r c, m.comparisonFor? r = some c → reference.kind? r = comparison.kind? c
  upright : ∀ r c x y, m.comparisonFor? r = some c → m.comparisonFor? x = some y →
    ¬ (reference.isAncestor r x = true ∧ comparison.isAncestor y c = true)

theorem Safe.empty (reference comparison : Expression) :
    (Mapping.empty reference.size comparison.size).Safe reference comparison where
  valid := .empty
  kinds r c h := by
    rw [comparisonFor?_empty] at h
    cases h
  upright r c x y h := by
    rw [comparisonFor?_empty] at h
    cases h

end Mapping

namespace Matching

open Expression

variable {p : Problem} {m m' : Mapping} {s s' : State} {e : Event} {events : List Event}
  {r c x y : Nat}

theorem Follows.follow? (h : Follows p m e m') : m.follow? e = some m' := by
  cases h with
  | pair _ _ hinsert => exact hinsert
  | other hother => simp [Mapping.follow?, hother]

theorem Problem.not_crosses_self (hr : r < p.reference.size) : ¬ p.Crosses r c r c := by
  rintro (⟨habove, -⟩ | ⟨habove, -⟩)
  · have := depth_lt_of_isAncestor hr habove
    omega
  · have := depth_lt_of_isAncestor hr habove
    omega

theorem safe_of_follows (hp : p.Guarded) (hm : m.Safe p.reference p.comparison)
    (h : Follows p m e m') : m'.Safe p.reference p.comparison := by
  cases h with
  | other _ => exact hm
  | @pair _ r c q hadmits _ hinsert =>
    have hvalid := hm.valid.insert hinsert
    have hnew : m'.comparisonFor? r = some c := by
      rw [Mapping.comparisonFor?_insert? hinsert, if_pos rfl]
    obtain ⟨hr, hc⟩ := hvalid.lt_sizes hnew
    obtain ⟨hkind, hcrosses⟩ := (hp.admits_iff hm.valid hr hc).1 hadmits
    -- a pair of the new mapping is the new one or an old one
    have hcases : ∀ x y, m'.comparisonFor? x = some y →
        (x = r ∧ y = c) ∨ m.comparisonFor? x = some y := by
      intro x y hxy
      rw [Mapping.comparisonFor?_insert? hinsert] at hxy
      split at hxy
      · rename_i hx
        exact .inl ⟨hx, (Option.some.inj hxy).symm⟩
      · exact .inr hxy
    refine ⟨hvalid, fun x y hxy => ?_, fun x y x' y' hxy hxy' hcross => ?_⟩
    · rcases hcases x y hxy with ⟨rfl, rfl⟩ | hold
      · exact hkind
      · exact hm.kinds x y hold
    · rcases hcases x y hxy with ⟨rfl, rfl⟩ | hold
      · rcases hcases x' y' hxy' with ⟨rfl, rfl⟩ | hold'
        · exact Problem.not_crosses_self hr (.inl hcross)
        · exact hcrosses x' y' hold' (.inr hcross)
      · rcases hcases x' y' hxy' with ⟨rfl, rfl⟩ | hold'
        · exact hcrosses x y hold (.inl hcross)
        · exact hm.upright x y x' y' hold hold' hcross

theorem safe_of_grows (hp : p.Guarded) (hs : s.mapping.Safe p.reference p.comparison)
    (h : Grows p s s') : s'.mapping.Safe p.reference p.comparison := by
  obtain ⟨events, -, htraces⟩ := h.log
  exact htraces.induction (fun _ _ _ => safe_of_follows hp) hs

namespace Traces

theorem replay? (h : Traces p m events m') : m.replay? events = some m' := by
  induction h with
  | nil _ => rfl
  | cons hfirst _ ih =>
    rw [Mapping.replay?, List.foldlM_cons, hfirst.follow?]
    exact ih

/-- A run that goes through a log goes through each of its beginnings. -/
theorem exists_of_prefix {early : List Event} (h : Traces p m events m')
    (hearly : early <+: events) : ∃ t, Traces p m early t := by
  induction h generalizing early with
  | nil m =>
    rw [List.prefix_nil.1 hearly]
    exact ⟨m, .nil m⟩
  | @cons m _ _ e events hfirst _ ih =>
    rcases List.prefix_cons_iff.1 hearly with rfl | ⟨rest, rfl, hrest⟩
    · exact ⟨m, .nil m⟩
    · obtain ⟨t, ht⟩ := ih hrest
      exact ⟨t, .cons hfirst ht⟩

end Traces

theorem traces_run (hp : p.Own) :
    Traces p (.empty p.reference.size p.comparison.size) (run p).log (run p).mapping := by
  obtain ⟨events, hlog, htraces⟩ := (grows_run hp).log
  obtain rfl : (run p).log = events := hlog
  exact htraces

/-- For all expressions and settings: the log of a run reports pairs that were accepted one after
another, the mapping is safe after each of them, and in the end the two roots are a pair. -/
theorem safe_after_every_pair (reference comparison : Expression) (config : Config) :
    ∃ m log, outcome (.ofExpressions reference comparison config) = .ok (m, log) ∧
      (Mapping.empty reference.size comparison.size).replay? log = some m ∧
      (∀ early, early <+: log → ∃ m',
        (Mapping.empty reference.size comparison.size).replay? early = some m' ∧
          m'.Safe reference comparison) ∧
      m.comparisonFor? reference.root = some comparison.root := by
  have hp := Problem.guarded_ofExpressions reference comparison config
  have htraces := traces_run hp.toOwn
  refine ⟨_, _, outcome_eq hp.toOwn, htraces.replay?, fun early hearly => ?_,
    comparisonFor?_root_run hp.toOwn⟩
  obtain ⟨t, ht⟩ := htraces.exists_of_prefix hearly
  exact ⟨t, ht.replay?, ht.induction (fun _ _ _ => safe_of_follows hp) (.empty _ _)⟩

end Matching
end Concordance
