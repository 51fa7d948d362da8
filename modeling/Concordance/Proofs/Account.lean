import Concordance.Proofs.ExactPairs
import Concordance.Proofs.Reports

/-!
# Differences as accounts

A difference of two expressions reports nothing in vain and leaves nothing out.
Because exact matching is maximum, a reported subtree has a signature that its
own side has more often than the other side, so that no content is reported both
as added and as deleted. On the way down to a node the walk comes either to the
node or to an end above it. If the subtree there is not reported, it is in an
exact pair, which carries everything below it.
-/
namespace Concordance

open Expression Matching

/-- Number of nodes with a signature. -/
def Expression.occurrences (e : Expression) (s : Signature) : Nat :=
  ((SignatureTable.ofExpression e).nodesWith s).length

namespace Difference

open Merged

variable {p : Problem} {m : Mapping} {side : Side} {n a r c : Nat} {q : Quality} {s : Signature}
  {e : OneSided}

section Levelled

variable (hm : Levelled p m)

include hm

theorem quality_of_alike (h : m.correspondence? r = some ⟨c, q⟩) (halike : p.Alike r c) :
    q = .exact := by
  cases q with
  | exact => rfl
  | approximate => exact absurd halike (hm.approximate r c h).1

theorem kept_iff_inPair_exact : Kept p m side n ↔ m.InPair side .exact n := by
  constructor
  · rintro ⟨r, c, q, hrc, halike, hpick⟩
    obtain rfl := quality_of_alike hm hrc halike
    exact ⟨r, c, hrc, hpick⟩
  · rintro ⟨r, c, hrc, hpick⟩
    exact ⟨r, c, .exact, hrc, hm.fair.exact r c hrc, hpick⟩

theorem inPair_exact_of_inSubtree (ha : m.InPair side .exact a) (hn : n < (p.tree side).size)
    (h : (p.tree side).InSubtree a n) : m.InPair side .exact n := by
  obtain ⟨r, c, hrc, rfl⟩ := ha
  have hcarries := hm.carriesSubtree hrc
  cases side with
  | reference =>
    obtain ⟨y, -, -, hy⟩ := hcarries.into n hn h
    exact ⟨n, y, hy, rfl⟩
  | comparison =>
    obtain ⟨x, -, -, hx⟩ := hcarries.onto n hn h
    exact ⟨x, n, hx, rfl⟩

/-- The exact pairs with a signature leave out a node with that signature that is in no exact
pair. -/
theorem length_exactPairs_lt (hp : p.Own) (hn : (p.table side).get? n = some s)
    (hfree : ¬ m.InPair side .exact n) :
    (m.exactPairs p.referenceTable s).length < ((p.table side).nodesWith s).length := by
  let node (pair : Nat × Correspondence) := side.pick pair.1 pair.2.comparison
  have hmem : ∀ x ∈ n :: (m.exactPairs p.referenceTable s).map node,
      x ∈ (p.table side).nodesWith s := by
    rintro x hx
    rw [hp.mem_nodesWith]
    rcases List.mem_cons.1 hx with rfl | hx
    · exact hn
    · obtain ⟨⟨r, c, q⟩, hpair, rfl⟩ := List.mem_map.1 hx
      obtain ⟨hrc, rfl, hr⟩ := Mapping.mem_exactPairs.1 hpair
      cases side with
      | reference => exact hr
      | comparison => exact (Problem.alike_iff hr).1 (hm.fair.exact r c hrc)
  have hnodup : (n :: (m.exactPairs p.referenceTable s).map node).Nodup := by
    rw [List.nodup_cons]
    constructor
    · intro hx
      obtain ⟨⟨r, c, q⟩, hpair, hpick⟩ := List.mem_map.1 hx
      obtain ⟨hrc, rfl, -⟩ := Mapping.mem_exactPairs.1 hpair
      exact hfree ⟨r, c, hrc, hpick⟩
    · rw [List.Nodup, List.pairwise_map]
      cases side with
      | reference => exact (m.pairs_pairwise.filter _).imp Nat.ne_of_lt
      | comparison => exact hm.fair.valid.pairs_pairwise.filter _
  have hle := (List.subperm_of_subset hnodup hmem).length_le
  rwa [List.length_cons, List.length_map] at hle

/-- The signature of a reported subtree occurs more often on its own side. -/
theorem occurrences_lt (hp : p.Own) (side : Side)
    (he : e ∈ (ofMerged (build (p.input m)) m).oneSided side) :
    (side.pick p.comparison p.reference).occurrences e.signature <
      (p.tree side).occurrences e.signature := by
  obtain ⟨hsignature, -, -, hnew⟩ := of_mem_oneSided hp hm.fair he
  have hlt := length_exactPairs_lt hm hp hsignature fun hexact =>
    hnew ((kept_iff_inPair_exact hm).2 hexact)
  rw [hm.length_exactPairs hp, hp.table_eq, hp.referenceTable, hp.comparisonTable,
    min_lt_iff] at hlt
  cases side with
  | reference => exact hlt.resolve_left (Nat.lt_irrefl _)
  | comparison => exact hlt.resolve_right (Nat.lt_irrefl _)

end Levelled

/-- For all expressions and settings, without collisions: the signature of every deletion is that of
more reference nodes than comparison nodes, the signature of every addition is that of more
comparison nodes than reference nodes, and no deletion has the signature of an addition. -/
theorem reports_outnumber (reference comparison : Expression) (config : Config)
    (hfree : CollisionFree reference comparison) :
    (∀ d ∈ (Correlation.ofExpressions reference comparison config).difference.deletions,
      comparison.occurrences d.signature < reference.occurrences d.signature) ∧
    (∀ a ∈ (Correlation.ofExpressions reference comparison config).difference.additions,
      reference.occurrences a.signature < comparison.occurrences a.signature) ∧
    ∀ d ∈ (Correlation.ofExpressions reference comparison config).difference.deletions,
      ∀ a ∈ (Correlation.ofExpressions reference comparison config).difference.additions,
        d.signature ≠ a.signature := by
  have hp := Problem.sound_ofExpressions config hfree
  have hm := levelled_run hp
  have hdeletion : ∀ d ∈
      (Correlation.ofExpressions reference comparison config).difference.deletions,
      comparison.occurrences d.signature < reference.occurrences d.signature :=
    fun d hd => occurrences_lt hm hp.toOwn .reference hd
  have haddition : ∀ a ∈
      (Correlation.ofExpressions reference comparison config).difference.additions,
      reference.occurrences a.signature < comparison.occurrences a.signature :=
    fun a ha => occurrences_lt hm hp.toOwn .comparison ha
  refine ⟨hdeletion, haddition, fun d hd a ha heq => ?_⟩
  have hmore := hdeletion d hd
  rw [heq] at hmore
  exact Nat.lt_asymm hmore (haddition a ha)

/-- The concept that stands by itself in the first expression is deleted, although the second
expression has it as well, below the role. -/
theorem reports_outnumber_twoSets :
    ∃ d ∈ (Correlation.ofExpressions Sample.twoSets Sample.oneSet {}).difference.deletions,
      d.origin = 3 ∧
        Sample.oneSet.occurrences d.signature < Sample.twoSets.occurrences d.signature := by
  have hmem : 3 ∈
      (Correlation.ofExpressions Sample.twoSets Sample.oneSet {}).difference.deletionOrigins := by
    rw [Merged.Sample.correlated.2]
    decide
  obtain ⟨d, hd, horigin⟩ := List.mem_map.1 hmem
  exact ⟨d, hd, horigin,
    (reports_outnumber Sample.twoSets Sample.oneSet {} Sample.collisionFree).1 d hd⟩

/-- A node is the top of a reported subtree of its side or lies below one. -/
def Reports (d : Difference) (side : Side) (e : Expression) (n : Nat) : Prop :=
  ∃ s ∈ d.oneSided side, e.InSubtree s.origin n

/-- A node lies below a role restriction that is in an exact pair and whose signature is one of the
shared roots. -/
def SharesRoleAbove (d : Difference) (m : Mapping) (side : Side) (e : Expression) (n : Nat) :
    Prop :=
  ∃ a k s, e.isAncestor a n = true ∧ e.kind? a = some k ∧ k.isRole = true ∧
    m.InPair side .exact a ∧ (SignatureTable.ofExpression e).get? a = some s ∧
      ∃ shared ∈ d.sharedRoots, shared.signature = s

/-- A difference covers a side: unmatched nodes are in reported subtrees, and leaves are in reported
subtrees, in shared role restrictions or shared themselves. -/
structure Covers (d : Difference) (m : Mapping) (side : Side) (e : Expression) : Prop where
  unmatched : ∀ n < e.size, (∀ q, ¬ m.InPair side q n) → d.Reports side e n
  leaves : ∀ n k, e.kind? n = some k → k.isLeaf = true →
    d.Reports side e n ∨ d.SharesRoleAbove m side e n ∨
      ∃ shared ∈ d.sharedAssertions, side.pick shared.reference shared.comparison = n

/-- Of the subtrees with one signature one is kept. -/
theorem exists_mem_firstOfEach {subtrees : List SharedSubtree} {t : SharedSubtree}
    (ht : t ∈ subtrees) : ∃ t' ∈ firstOfEach subtrees, t'.signature = t.signature := by
  suffices hfold : ∀ kept, (t ∈ kept ∨ t ∈ subtrees) → ∃ t' ∈ subtrees.foldl
      (fun kept s => if kept.any (·.signature = s.signature) then kept else kept ++ [s]) kept,
      t'.signature = t.signature from hfold [] (.inr ht)
  clear ht
  induction subtrees generalizing t with
  | nil =>
    intro kept h
    exact ⟨t, h.resolve_right List.not_mem_nil, rfl⟩
  | cons x xs ih =>
    intro kept h
    rw [List.foldl_cons]
    by_cases hany : (kept.any (·.signature = x.signature)) = true
    · rw [if_pos hany]
      rcases h with h | h
      · exact ih kept (.inl h)
      · rcases List.mem_cons.1 h with rfl | h
        · -- an earlier subtree stands for this one
          obtain ⟨y, hy, hsame⟩ := List.any_eq_true.1 hany
          obtain ⟨t', ht', hsignature⟩ := ih kept (.inl hy)
          exact ⟨t', ht', hsignature.trans (of_decide_eq_true hsame)⟩
        · exact ih kept (.inr h)
    · rw [if_neg hany]
      rcases h with h | h
      · exact ih _ (.inl (List.mem_append_left _ h))
      · rcases List.mem_cons.1 h with rfl | h
        · exact ih _ (.inl (by simp))
        · exact ih _ (.inr h)

section Covers

variable (hp : p.Own) (hm : Levelled p m) (hroot : Reached p m side (p.tree side).root)

include hp hm hroot

/-- Below an end of the walk: either a subtree around the node is reported, or the end is a node of
an exact pair that the walk comes to. -/
theorem reports_or_exact (hn : n < (p.tree side).size) (hstop : ¬ Passable p m side n) :
    (ofMerged (build (p.input m)) m).Reports side (p.tree side) n ∨
      ∃ a, (p.tree side).InSubtree a n ∧ Reached p m side a ∧ ¬ Passable p m side a ∧
        m.InPair side .exact a := by
  obtain ⟨a, ha, hreached, hends⟩ : ∃ a, (p.tree side).InSubtree a n ∧ Reached p m side a ∧
      ¬ Passable p m side a := by
    rcases reached_or_stopped hm.fair hroot hn with hreached | ⟨a, habove, hends⟩
    · exact ⟨n, .inl rfl, hreached, hstop⟩
    · exact ⟨a, .inr habove, hends⟩
  by_cases hexact : m.InPair side .exact a
  · exact .inr ⟨a, ha, hreached, hends, hexact⟩
  · obtain ⟨e, he, rfl⟩ := exists_report hp hm.fair hreached hends
      (mt (kept_iff_inPair_exact hm).1 hexact)
    exact .inl ⟨e, he, ha⟩

theorem reports_of_unmatched (hn : n < (p.tree side).size) (hfree : ∀ q, ¬ m.InPair side q n) :
    (ofMerged (build (p.input m)) m).Reports side (p.tree side) n := by
  refine (reports_or_exact hp hm hroot hn fun ⟨⟨q, hq⟩, _⟩ => hfree q hq).resolve_right ?_
  rintro ⟨a, ha, -, -, hexact⟩
  exact hfree .exact (inPair_exact_of_inSubtree hm hexact hn ha)

theorem covers_leaf {k : Kind} (hk : (p.tree side).kind? n = some k) (hleaf : k.isLeaf = true) :
    (ofMerged (build (p.input m)) m).Reports side (p.tree side) n ∨
      (ofMerged (build (p.input m)) m).SharesRoleAbove m side (p.tree side) n ∨
        ∃ shared ∈ (ofMerged (build (p.input m)) m).sharedAssertions,
          side.pick shared.reference shared.comparison = n := by
  have hn := lt_size_of_kind? hk
  have hterminal : (p.tree side).IsTerminal n := ⟨k, hk, by rw [hleaf, Bool.or_true]⟩
  refine (reports_or_exact hp hm hroot hn fun hpass => hpass.2 hterminal).imp_right ?_
  rintro ⟨a, ha, hreached, hends, r, c, hrc, rfl⟩
  obtain ⟨shared, hshared, rfl, rfl, hkind, hsignature⟩ :=
    exists_shared hp hm.fair hrc (hm.fair.exact r c hrc) hreached hends
  have hkind' : (p.tree side).kind? (side.pick shared.reference shared.comparison) =
      some shared.kind := (kind?_pick hm.fair hrc side).trans hkind
  rcases ha with rfl | habove
  · obtain rfl := Option.some.inj (hk.symm.trans hkind')
    exact .inr ⟨shared, List.mem_filter.2 ⟨hshared, hleaf⟩, rfl⟩
  · -- the end of the walk lies above, so it is a role restriction
    have hinner := isLeaf_eq_false_of_isAncestor hn habove hkind'
    have hrole : shared.kind.isRole = true := by
      by_contra hnot
      refine hends ⟨⟨.exact, _, _, hrc, rfl⟩, ?_⟩
      rw [isTerminal_iff hkind', hinner, Bool.or_false]
      exact hnot
    have hroots : shared ∈ ((visited (build (p.input m))).filterMap (shared? m)).filter
        fun s => !s.kind.isLeaf := List.mem_filter.2 ⟨hshared, by rw [hinner]; rfl⟩
    obtain ⟨t, ht, hsame⟩ := exists_mem_firstOfEach hroots
    have htable : (p.table side).get? (side.pick shared.reference shared.comparison) =
        some shared.signature := by
      cases side with
      | reference => exact hsignature
      | comparison => exact (Problem.alike_iff hsignature).1 (hm.fair.exact _ _ hrc)
    rw [hp.table_eq] at htable
    exact .inl ⟨_, _, _, habove, hkind', hrole, ⟨_, _, hrc, rfl⟩, htable, t, ht, hsame⟩

theorem covers : (ofMerged (build (p.input m)) m).Covers m side (p.tree side) where
  unmatched _ := reports_of_unmatched hp hm hroot
  leaves _ _ := covers_leaf hp hm hroot

end Covers

/-- For all expressions and settings, without collisions, the difference covers both sides. -/
theorem covers_both_sides (reference comparison : Expression) (config : Config)
    (hfree : CollisionFree reference comparison) :
    (Correlation.ofExpressions reference comparison config).difference.Covers
        (Mapping.ofExpressions reference comparison config) .reference reference ∧
      (Correlation.ofExpressions reference comparison config).difference.Covers
        (Mapping.ofExpressions reference comparison config) .comparison comparison := by
  have hp := Problem.sound_ofExpressions config hfree
  have hm := levelled_run hp
  have hroots := comparisonFor?_root_run hp.toOwn
  have hreference := covers hp.toOwn hm (reached_root_reference hm.fair)
  have hcomparison := covers hp.toOwn hm (reached_root_comparison hm.fair hroots)
  exact ⟨hreference, hcomparison⟩

theorem covers_both_sides_twoSets :
    (Correlation.ofExpressions Sample.twoSets Sample.oneSet {}).difference.Covers
        (Mapping.ofExpressions Sample.twoSets Sample.oneSet {}) .reference Sample.twoSets ∧
      (Correlation.ofExpressions Sample.twoSets Sample.oneSet {}).difference.Covers
        (Mapping.ofExpressions Sample.twoSets Sample.oneSet {}) .comparison Sample.oneSet :=
  covers_both_sides Sample.twoSets Sample.oneSet {} Sample.collisionFree

end Difference
end Concordance
