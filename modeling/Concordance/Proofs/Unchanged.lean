import Concordance.Proofs.Account
import Concordance.Proofs.Difference

/-!
# Unchanged expressions

An empty difference does not mean equal content. The walk goes on below
approximate pairs of definition sets, conjunctions and disjunctions, so leaves
that changed places between two such groups are shared all the same. What an
empty difference does mean is equality up to grouping: every leaf and every role
restriction is in a pair with one of the same content, and the signatures of the
expressions are equal exactly if the groups are exact pairs as well.
-/
namespace Concordance.Difference

open Expression Matching

/-- A mapping accounts for two expressions: the nodes with no role restriction above them are all
in pairs of one kind, and those among them at which a walk ends are in pairs of one signature. -/
structure Accounts (m : Mapping) (reference comparison : Expression) : Prop where
  references : ∀ r < reference.size, reference.Exposed r → ∃ c, m.comparisonFor? r = some c
  comparisons : ∀ c < comparison.size, comparison.Exposed c → ∃ r, m.comparisonFor? r = some c
  kinds : ∀ r c, m.comparisonFor? r = some c → reference.kind? r = comparison.kind? c
  content : ∀ r c, m.comparisonFor? r = some c → reference.Exposed r ∨ comparison.Exposed c →
    reference.IsTerminal r → ∃ s, (SignatureTable.ofExpression reference).get? r = some s ∧
      (SignatureTable.ofExpression comparison).get? c = some s

/-- Two expressions are equal up to grouping: everything is in pairs, only groups outside of role
restrictions are in approximate pairs, leaves and role restrictions of every signature are as many
on either side, and the expressions have one signature if no pair is approximate. -/
structure EqualUpToGrouping (m : Mapping) (reference comparison : Expression) : Prop where
  total : m.isTotal = true
  groups : ∀ r c, m.correspondence? r = some ⟨c, .approximate⟩ →
    reference.Exposed r ∧ comparison.Exposed c ∧ ¬ reference.IsTerminal r
  terminals : ∀ s, (∃ r, (SignatureTable.ofExpression reference).get? r = some s ∧
      reference.IsTerminal r) ∨ (∃ c, (SignatureTable.ofExpression comparison).get? c = some s ∧
        comparison.IsTerminal c) →
    ((SignatureTable.ofExpression reference).nodesWith s).length =
      ((SignatureTable.ofExpression comparison).nodesWith s).length
  signature : (SignatureTable.ofExpression reference).rootSignature =
    (SignatureTable.ofExpression comparison).rootSignature ↔ m.approximateCount = 0

variable {p : Problem} {m : Mapping} {r c : Nat} {q : Quality}

section Levelled

variable (hm : Levelled p m)

include hm

theorem not_exact_of_approximate (h : m.correspondence? r = some ⟨c, .approximate⟩) :
    (∀ y, m.correspondence? r ≠ some ⟨y, .exact⟩) ∧
      ∀ x, m.correspondence? x ≠ some ⟨c, .exact⟩ := by
  constructor
  · intro y hy
    rw [h] at hy
    simp at hy
  · intro x hx
    obtain rfl := hm.fair.valid.injective (Mapping.comparisonFor?_eq_some_iff.2 ⟨_, hx⟩)
      (Mapping.comparisonFor?_eq_some_iff.2 ⟨_, h⟩)
    rw [h] at hx
    simp at hx

/-- Below an exposed role restriction that is in an exact pair there are only exact pairs. -/
theorem exposed_or_exact_reference (hterminal : ∀ r < p.reference.size, p.reference.Exposed r →
      p.reference.IsTerminal r → ∃ c, m.correspondence? r = some ⟨c, .exact⟩)
    (hr : r < p.reference.size) :
    p.reference.Exposed r ∨ ∃ c, m.correspondence? r = some ⟨c, .exact⟩ := by
  refine exposed_or_of_terminal (P := fun r => ∃ c, m.correspondence? r = some ⟨c, .exact⟩)
    hterminal ?_ hr
  rintro r x hx ⟨c, hc⟩
  obtain ⟨y, -, hy⟩ := (hm.carried r c hc).reference x hx
  exact ⟨y, hy⟩

theorem exposed_or_exact_comparison (hterminal : ∀ c < p.comparison.size, p.comparison.Exposed c →
      p.comparison.IsTerminal c → ∃ r, m.correspondence? r = some ⟨c, .exact⟩)
    (hc : c < p.comparison.size) :
    p.comparison.Exposed c ∨ ∃ r, m.correspondence? r = some ⟨c, .exact⟩ := by
  refine exposed_or_of_terminal (P := fun c => ∃ r, m.correspondence? r = some ⟨c, .exact⟩)
    hterminal ?_ hc
  rintro c y hy ⟨r, hr⟩
  obtain ⟨x, -, hx⟩ := (hm.carried r c hr).comparison y hy
  exact ⟨x, hx⟩

/-- The two expressions have one signature exactly if all pairs are exact. -/
theorem rootSignature_eq_iff (hp : p.Own)
    (hroots : m.comparisonFor? p.reference.root = some p.comparison.root) :
    (SignatureTable.ofExpression p.reference).rootSignature =
      (SignatureTable.ofExpression p.comparison).rootSignature ↔ m.approximateCount = 0 := by
  have halike : p.Alike p.reference.root p.comparison.root ↔
      (SignatureTable.ofExpression p.reference).rootSignature =
        (SignatureTable.ofExpression p.comparison).rootSignature := by
    have hr := SignatureTable.get?_root p.reference
    have hc := SignatureTable.get?_root p.comparison
    rw [← hp.referenceTable] at hr ⊢
    rw [← hp.comparisonTable] at hc ⊢
    rw [Problem.alike_iff hr, hc, Option.some.injEq, eq_comm]
  obtain ⟨q, hq⟩ := Mapping.comparisonFor?_eq_some_iff.1 hroots
  rw [← halike, Mapping.approximateCount_eq_zero_iff]
  constructor
  · intro hroot r c q' hr
    obtain rfl := quality_of_alike hm hq hroot
    have hrsize := (hm.fair.valid.lt_sizes (Mapping.comparisonFor?_eq_some_iff.2 ⟨_, hr⟩)).1
    obtain ⟨y, -, -, hy⟩ := (hm.carriesSubtree hq).into r hrsize (inSubtree_root hrsize)
    rw [hr] at hy
    exact (Correspondence.mk.inj (Option.some.inj hy)).2
  · intro hall
    rw [hall _ _ _ hq] at hq
    exact hm.fair.exact _ _ hq

/-- A signature of terminal nodes occurs equally often if all terminal nodes are in exact pairs. -/
theorem length_nodesWith_eq (hp : p.Sound)
    (hreference : ∀ r < p.reference.size, p.reference.IsTerminal r →
      ∃ c, m.correspondence? r = some ⟨c, .exact⟩)
    (hcomparison : ∀ c < p.comparison.size, p.comparison.IsTerminal c →
      ∃ r, m.correspondence? r = some ⟨c, .exact⟩) {s : Signature}
    (hs : (∃ r, p.referenceTable.get? r = some s ∧ p.reference.IsTerminal r) ∨
      ∃ c, p.comparisonTable.get? c = some s ∧ p.comparison.IsTerminal c) :
    (p.referenceTable.nodesWith s).length = (p.comparisonTable.nodesWith s).length := by
  -- an exact pair with the signature: all nodes with the signature are of its kind
  obtain ⟨r, c, hr, hc, hterminal, hterminal'⟩ : ∃ r c, p.referenceTable.get? r = some s ∧
      p.comparisonTable.get? c = some s ∧ p.reference.IsTerminal r ∧ p.comparison.IsTerminal c := by
    rcases hs with ⟨r, hr, hterminal⟩ | ⟨c, hc, hterminal⟩
    · obtain ⟨c, hrc⟩ := hreference r (hp.lt_referenceSize_of_get? hr) hterminal
      have halike := hm.fair.exact r c hrc
      exact ⟨r, c, hr, (Problem.alike_iff hr).1 halike, hterminal,
        isTerminal_of_kind?_eq (hp.kind?_eq halike) hterminal⟩
    · obtain ⟨r, hrc⟩ := hcomparison c (hp.lt_comparisonSize_of_get? hc) hterminal
      have halike := hm.fair.exact r c hrc
      exact ⟨r, c, halike.get?_eq.trans hc, hc,
        isTerminal_of_kind?_eq (hp.kind?_eq halike).symm hterminal, hterminal⟩
  have hle := length_reference_le_exactPairs (m := m) hp.toOwn s fun x hx =>
    hreference x (hp.lt_referenceSize_of_get? hx)
      (isTerminal_of_kind?_eq (hp.kind?_eq ⟨s, hx, hc⟩).symm hterminal')
  have hle' := length_comparison_le_exactPairs hp.toOwn hm.fair s fun y hy =>
    hcomparison y (hp.lt_comparisonSize_of_get? hy)
      (isTerminal_of_kind?_eq (hp.kind?_eq ⟨s, hr, hy⟩) hterminal)
  have hcount := hm.length_exactPairs hp.toOwn s
  omega

/-- Without collisions expressions that a mapping accounts for are equal up to grouping. -/
theorem Accounts.equalUpToGrouping (hp : p.Sound)
    (hroots : m.comparisonFor? p.reference.root = some p.comparison.root)
    (h : Accounts m p.reference p.comparison) :
    EqualUpToGrouping m p.reference p.comparison := by
  have hcontent : ∀ r c, m.comparisonFor? r = some c →
      p.reference.Exposed r ∨ p.comparison.Exposed c → p.reference.IsTerminal r →
        m.correspondence? r = some ⟨c, .exact⟩ := by
    intro r c hrc hexposed hterminal
    have halike : p.Alike r c := by
      obtain ⟨s, hr, hc⟩ := h.content r c hrc hexposed hterminal
      exact ⟨s, by rw [hp.referenceTable]; exact hr, by rw [hp.comparisonTable]; exact hc⟩
    obtain ⟨q, hq⟩ := Mapping.comparisonFor?_eq_some_iff.1 hrc
    rw [hq, quality_of_alike hm hq halike]
  have hends : ∀ r < p.reference.size, p.reference.Exposed r → p.reference.IsTerminal r →
      ∃ c, m.correspondence? r = some ⟨c, .exact⟩ := by
    intro r hr hexposed hterminal
    obtain ⟨c, hrc⟩ := h.references r hr hexposed
    exact ⟨c, hcontent r c hrc (.inl hexposed) hterminal⟩
  have hends' : ∀ c < p.comparison.size, p.comparison.Exposed c → p.comparison.IsTerminal c →
      ∃ r, m.correspondence? r = some ⟨c, .exact⟩ := by
    intro c hc hexposed hterminal
    obtain ⟨r, hrc⟩ := h.comparisons c hc hexposed
    exact ⟨r, hcontent r c hrc (.inr hexposed)
      (isTerminal_of_kind?_eq (h.kinds r c hrc).symm hterminal)⟩
  have hreference := fun r hr => exposed_or_exact_reference (r := r) hm hends hr
  have hcomparison := fun c hc => exposed_or_exact_comparison (c := c) hm hends' hc
  refine ⟨Mapping.isTotal_iff.2 ⟨fun r hr => ?_, fun c hc => ?_⟩, fun r c hrc => ?_,
    fun s hs => ?_, rootSignature_eq_iff hm hp.toOwn hroots⟩
  · rw [hm.fair.valid.reference] at hr
    rcases hreference r hr with hexposed | ⟨c, hrc⟩
    · exact h.references r hr hexposed
    · exact ⟨c, Mapping.comparisonFor?_eq_some_iff.2 ⟨_, hrc⟩⟩
  · rw [hm.fair.valid.comparison] at hc
    rcases hcomparison c hc with hexposed | ⟨r, hrc⟩
    · obtain ⟨r, hr⟩ := h.comparisons c hc hexposed
      exact ⟨r, (hm.fair.valid.agree r c).1 hr⟩
    · exact ⟨r, (hm.fair.valid.agree r c).1 (Mapping.comparisonFor?_eq_some_iff.2 ⟨_, hrc⟩)⟩
  · have hpair := Mapping.comparisonFor?_eq_some_iff.2 ⟨_, hrc⟩
    obtain ⟨hr, hc⟩ := hm.fair.valid.lt_sizes hpair
    obtain ⟨hnotr, hnotc⟩ := not_exact_of_approximate hm hrc
    have hexposed := (hreference r hr).resolve_right fun ⟨y, hy⟩ => hnotr y hy
    refine ⟨hexposed, (hcomparison c hc).resolve_right fun ⟨x, hx⟩ => hnotc x hx, ?_⟩
    exact fun hterminal => hnotr c (hcontent r c hpair (.inl hexposed) hterminal)
  · rw [← hp.referenceTable, ← hp.comparisonTable] at hs ⊢
    exact length_nodesWith_eq hm hp
      (fun r hr hterminal => (hreference r hr).elim (hends r hr · hterminal) id)
      (fun c hc hterminal => (hcomparison c hc).elim (hends' c hc · hterminal) id) hs

end Levelled

/-- For all expressions and settings: if nothing is reported, the mapping accounts for both
expressions, and without collisions they are equal up to grouping. -/
theorem equal_up_to_grouping_of_unchanged (reference comparison : Expression) (config : Config)
    (h : (Correlation.ofExpressions reference comparison config).difference.isUnchanged = true) :
    Accounts (Mapping.ofExpressions reference comparison config) reference comparison ∧
      (CollisionFree reference comparison →
        EqualUpToGrouping (Mapping.ofExpressions reference comparison config)
          reference comparison) := by
  have hown := Problem.own_ofExpressions reference comparison config
  have hfair := fair_run hown
  have hroots := comparisonFor?_root_run hown
  have hunchanged : (ofMerged
      (Merged.build ((Problem.ofExpressions reference comparison config).input
        (run (.ofExpressions reference comparison config)).mapping))
      (run (.ofExpressions reference comparison config)).mapping).isUnchanged = true := h
  have hreference := fun r hr hexposed =>
    exists_comparison_of_exposed (r := r) hown hfair hunchanged hr hexposed
  have hcomparison := fun c hc hexposed =>
    exists_reference_of_exposed (c := c) hown hfair hunchanged hroots hc hexposed
  have haccounts : Accounts (Mapping.ofExpressions reference comparison config)
      reference comparison := by
    refine ⟨fun r hr hexposed => ?_, fun c hc hexposed => ?_, hfair.kinds, ?_⟩
    · obtain ⟨c, q, hrc, -⟩ := hreference r hr hexposed
      exact ⟨c, Mapping.comparisonFor?_eq_some_iff.2 ⟨q, hrc⟩⟩
    · obtain ⟨r, q, hrc, -⟩ := hcomparison c hc hexposed
      exact ⟨r, Mapping.comparisonFor?_eq_some_iff.2 ⟨q, hrc⟩⟩
    · rintro r c hrc (hexposed | hexposed) hterminal
      · obtain ⟨c', q, hrc', hcontent⟩ := hreference r (hfair.valid.lt_sizes hrc).1 hexposed
        have hc' := Mapping.comparisonFor?_eq_some_iff.2 ⟨q, hrc'⟩
        obtain rfl := Option.some.inj (hrc.symm.trans hc')
        exact hcontent hterminal
      · obtain ⟨r', q, hrc', hcontent⟩ := hcomparison c (hfair.valid.lt_sizes hrc).2 hexposed
        have hr' := Mapping.comparisonFor?_eq_some_iff.2 ⟨q, hrc'⟩
        obtain rfl := hfair.valid.injective hrc hr'
        exact hcontent hterminal
  refine ⟨haccounts, fun hfree => ?_⟩
  have hp := Problem.sound_ofExpressions config hfree
  exact haccounts.equalUpToGrouping (levelled_run hp) hp hroots

/-- One concept in a necessary set and another one in a sufficient set. -/
def Sample.straight : Expression where
  nodes := .ofList [⟨.concept 1, []⟩, ⟨.necessarySet, [0]⟩, ⟨.concept 2, []⟩,
    ⟨.sufficientSet, [2]⟩, ⟨.root, [1, 3]⟩]
  root := 4
  parents := #[some 1, some 4, some 3, some 4, none]
  valid := by decide +kernel

/-- The same concepts, each in the other set. -/
def Sample.crossed : Expression where
  nodes := .ofList [⟨.concept 2, []⟩, ⟨.necessarySet, [0]⟩, ⟨.concept 1, []⟩,
    ⟨.sufficientSet, [2]⟩, ⟨.root, [1, 3]⟩]
  root := 4
  parents := #[some 1, some 4, some 3, some 4, none]
  valid := by decide +kernel

/-- What evaluation says about the two expressions. -/
theorem Sample.evaluated_crossed : CollisionFree straight crossed ∧
    (Correlator.default.correlate straight crossed).difference.isUnchanged = true ∧
    (SignatureTable.ofExpression straight).rootSignature ≠
      (SignatureTable.ofExpression crossed).rootSignature := by
  decide +kernel

theorem equal_up_to_grouping_of_unchanged_crossed :
    EqualUpToGrouping (Mapping.ofExpressions Sample.straight Sample.crossed {})
      Sample.straight Sample.crossed :=
  (equal_up_to_grouping_of_unchanged Sample.straight Sample.crossed {}
    Sample.evaluated_crossed.2.1).2 Sample.evaluated_crossed.1

/-- Concepts that change places between two sets leave the difference empty, but not the signature
of the expression the same. -/
theorem unchanged_with_other_signature :
    (Correlator.default.correlate Sample.straight Sample.crossed).difference.isUnchanged = true ∧
      (SignatureTable.ofExpression Sample.straight).rootSignature ≠
        (SignatureTable.ofExpression Sample.crossed).rootSignature :=
  Sample.evaluated_crossed.2

end Concordance.Difference
