import Concordance.Proofs.Matching.Completion

/-!
# Attached pairs

A pair is attached if it is the pair of the two roots or hangs below another
pair. The spine pass makes attached pairs only: definition sets below the roots,
and children of definition sets that are a pair already. Approximate pairs that
are not attached therefore come from the overlap pass.
-/
namespace Concordance

/-- A pair is attached: its nodes are the two roots, or their parents are a pair. -/
def Mapping.Attached (m : Mapping) (reference comparison : Expression) (r c : Nat) : Prop :=
  (r = reference.root ∧ c = comparison.root) ∨
    ∃ a b, reference.parent? r = some a ∧ comparison.parent? c = some b ∧
      m.comparisonFor? a = some b

namespace Matching

open Expression

variable {p : Problem} {m m' : Mapping} {s : State} {r c a b : Nat}

theorem attached_of_extends (h : m'.Extends m) (hrc : m.Attached p.reference p.comparison r c) :
    m'.Attached p.reference p.comparison r c := by
  refine hrc.imp_right ?_
  rintro ⟨a, b, hr, hc, hab⟩
  exact ⟨a, b, hr, hc, h.comparisonFor? hab⟩

theorem attached_of_mem_children (hr : r ∈ p.reference.children a)
    (hc : c ∈ p.comparison.children b) (hab : m.comparisonFor? a = some b) :
    m.Attached p.reference p.comparison r c :=
  .inr ⟨a, b, parent?_eq_some_iff.2 hr, parent?_eq_some_iff.2 hc, hab⟩

/-- The two roots are a pair, and all approximate pairs are attached. -/
structure Spined (p : Problem) (m : Mapping) : Prop where
  roots : m.comparisonFor? p.reference.root = some p.comparison.root
  attached : ∀ r c, m.correspondence? r = some ⟨c, .approximate⟩ →
    m.Attached p.reference p.comparison r c

/-- A new pair that is attached keeps this. -/
theorem Spined.pair (hs : Spined p s.mapping)
    (hrc : s.mapping.Attached p.reference p.comparison r c) :
    Spined p (s.pair p r c .approximate).mapping := by
  rcases State.pair_cases p s r c .approximate with hsame | hpair
  · rwa [hsame]
  · obtain ⟨-, hinsert, -, -⟩ := State.pair?_eq_some hpair
    have hextends := Mapping.Extends.of_insert? hinsert
    refine ⟨hextends.comparisonFor? hs.roots, fun x y hxy => ?_⟩
    rw [Mapping.correspondence?_insert? hinsert] at hxy
    split at hxy
    · rename_i hx
      obtain ⟨rfl, -⟩ := Correspondence.mk.inj (Option.some.inj hxy)
      rw [hx]
      exact attached_of_extends hextends hrc
    · exact attached_of_extends hextends (hs.attached x y hxy)

theorem spined_pairRoots (hs : Fair p s.mapping)
    (hexact : ∀ r c q, s.mapping.correspondence? r = some ⟨c, q⟩ → q = .exact) :
    Spined p (pairRoots p s).mapping := by
  refine ⟨comparisonFor?_pairRoots hs, fun r c hrc => ?_⟩
  have hnew : ∀ x y, s.mapping.correspondence? x ≠ some ⟨y, .approximate⟩ := by
    intro x y hxy
    have := hexact x y _ hxy
    simp at this
  rcases pairRoots_cases p s with hsame | hpair
  · rw [hsame] at hrc
    exact absurd hrc (hnew r c)
  · obtain ⟨-, hinsert, -, -⟩ := State.pair?_eq_some hpair
    rw [Mapping.correspondence?_insert? hinsert] at hrc
    split at hrc
    · rename_i hr
      obtain ⟨rfl, -⟩ := Correspondence.mk.inj (Option.some.inj hrc)
      exact .inl ⟨hr, rfl⟩
    · exact absurd hrc (hnew r c)

theorem spined_spinePairs (hs : Fair p s.mapping)
    (hexact : ∀ r c q, s.mapping.correspondence? r = some ⟨c, q⟩ → q = .exact) :
    Spined p (spinePairs p s).mapping := by
  refine spinePairs_induction (P := fun t => Spined p t.mapping) ?_ ?_ (spined_pairRoots hs hexact)
  · intro t x y ht hsets
    exact ht.pair (attached_of_mem_children hsets.reference hsets.comparison ht.roots)
  · intro t a b x y ht hbelow
    exact ht.pair (attached_of_mem_children hbelow.reference hbelow.comparison hbelow.partners)

/-- Without the overlap pass all approximate pairs of a run are attached. -/
theorem spined_run (hp : p.Sound) (h : p.config.bestEffort = false) :
    Spined p (run p).mapping := by
  have hoverlap : afterOverlap p = afterSignatures p := by
    rw [afterOverlap, h]
    rfl
  have hfair := (levelled_afterOverlap hp).fair
  rw [mapping_run hp.toOwn]
  refine spined_spinePairs hfair fun r c q hrc => ?_
  rw [hoverlap] at hrc
  exact ((settled_afterSignatures hp).1.exact.pairs r c q hrc).1

end Matching
end Concordance
