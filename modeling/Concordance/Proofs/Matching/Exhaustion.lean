import Concordance.Proofs.Matching.Orderly
import Mathlib.Data.List.Induction

/-!
# Exhaustion of exact pairs

Both exact passes go through the nodes by descending size. When a node comes up,
the nodes above it were visited before and are not alike to any unmatched node,
so that pairing it keeps the order of exact pairs. After the second pass no two
alike nodes are left over.
-/
namespace Concordance.Matching

open Expression

variable {p : Problem} {m m' : Mapping} {s s' : State} {r c a b : Nat}

namespace Problem

theorem largerFirst_pairwise (p : Problem) (xs : List Nat) :
    (sortBy p.largerFirst xs).Pairwise fun a b =>
      p.referenceTable.subtreeSize b ≤ p.referenceTable.subtreeSize a := by
  have htotal : ∀ a b, p.largerFirst a b = true ∨ p.largerFirst b a = true := by
    intro a b
    simp only [largerFirst, Bool.or_eq_true, Bool.and_eq_true, decide_eq_true_eq, beq_iff_eq]
    omega
  have htrans : ∀ a b c, p.largerFirst a b = true → p.largerFirst b c = true →
      p.largerFirst a c = true := by
    intro a b c
    simp only [largerFirst, Bool.or_eq_true, Bool.and_eq_true, decide_eq_true_eq, beq_iff_eq]
    omega
  have hsorted := sortBy_pairwise htotal htrans xs
  refine hsorted.imp fun h => ?_
  simp only [largerFirst, Bool.or_eq_true, Bool.and_eq_true, decide_eq_true_eq, beq_iff_eq] at h
  omega

namespace Own

variable (hp : p.Own)

include hp

theorem largestFirst_pairwise :
    p.largestFirst.Pairwise fun a b => p.reference.extent b ≤ p.reference.extent a := by
  refine (p.largerFirst_pairwise (List.range p.reference.size)).imp_of_mem ?_
  intro a b ha hb h
  rwa [hp.subtreeSize_eq (mem_largestFirst.1 ha), hp.subtreeSize_eq (mem_largestFirst.1 hb)] at h

theorem anchors_pairwise :
    p.anchors.Pairwise fun a b => p.reference.extent b.1 ≤ p.reference.extent a.1 := by
  rw [anchors, List.pairwise_filterMap, hp.size_referenceTable]
  refine hp.largestFirst_pairwise.imp fun h => ?_
  intro x hx y hy
  rw [(hp.anchor?_eq_some_iff.1 hx).1, (hp.anchor?_eq_some_iff.1 hy).1]
  exact h

/-- An anchor is alike to its own partner only. -/
theorem eq_of_alike_anchor (h : (r, c) ∈ p.anchors) :
    (∀ x, p.Alike x c → x = r) ∧ ∀ y, p.Alike r y → y = c := by
  obtain ⟨t, honlyr, honlyc⟩ := hp.mem_anchors_iff.1 h
  dsimp only at honlyr honlyc
  have hr := hp.mem_reference_nodesWith.1 (honlyr ▸ List.mem_singleton_self r)
  have hc := hp.mem_comparison_nodesWith.1 (honlyc ▸ List.mem_singleton_self c)
  constructor
  · intro x hx
    have hmem := hp.mem_reference_nodesWith.2 (hx.get?_eq.trans hc)
    rw [honlyr] at hmem
    exact List.mem_singleton.1 hmem
  · intro y hy
    have hmem := hp.mem_comparison_nodesWith.2 (hy.get?_eq.symm.trans hr)
    rw [honlyc] at hmem
    exact List.mem_singleton.1 hmem

end Own

/-- Nodes above an anchor that are alike are an anchor themselves: another node of their signature
would have the anchor's signature below it once more. -/
theorem Sound.mem_anchors_of_child (hp : p.Sound) (h : (r, c) ∈ p.anchors)
    (hr : r ∈ p.reference.children a) (hab : p.Alike a b) :
    c ∈ p.comparison.children b ∧ (a, b) ∈ p.anchors := by
  obtain ⟨hreference, hcomparison⟩ := hp.eq_of_alike_anchor h
  have hbelow : ∀ b', p.Alike a b' → c ∈ p.comparison.children b' := by
    intro b' hab'
    obtain ⟨y, hy, hry⟩ := hp.exists_alike_comparison_child hab' hr
    rwa [← hcomparison y hry]
  obtain ⟨u, ha, hb⟩ := hab
  refine ⟨hbelow b ⟨u, ha, hb⟩, hp.mem_anchors_iff.2 ⟨u, ?_, ?_⟩⟩
  · rw [← List.perm_singleton, List.perm_ext_iff_of_nodup (SignatureTable.nodesWith_nodup _ _)
      (List.nodup_singleton a)]
    intro a'
    rw [hp.mem_reference_nodesWith, List.mem_singleton]
    constructor
    · intro ha'
      obtain ⟨x, hx, hxc⟩ := hp.exists_alike_reference_child ⟨u, ha', hb⟩ (hbelow b ⟨u, ha, hb⟩)
      rw [hreference x hxc] at hx
      exact parent_unique hx hr
    · rintro rfl
      exact ha
  · rw [← List.perm_singleton, List.perm_ext_iff_of_nodup (SignatureTable.nodesWith_nodup _ _)
      (List.nodup_singleton b)]
    intro b'
    rw [hp.mem_comparison_nodesWith, List.mem_singleton]
    constructor
    · intro hb'
      exact parent_unique (hbelow b' ⟨u, ha, hb'⟩) (hbelow b ⟨u, ha, hb⟩)
    · rintro rfl
      exact hb

end Problem

/-- No two alike nodes are both unmatched. -/
def Exhausted (p : Problem) (m : Mapping) : Prop :=
  ∀ r c, ¬ Matchable p m r c

theorem matchable_of_grows (hs : Exact p s.mapping) (h : Grows p s s') (hs' : Exact p s'.mapping)
    (hmatch : Matchable p s'.mapping r c) : Matchable p s.mapping r c :=
  hmatch.of_extends hs.valid hs'.valid h.extension

/-- Of items sorted by descending size, larger ones come before smaller ones. -/
theorem mem_before_of_larger {α : Type} (size : α → Nat) {items before after : List α} {x y : α}
    (hsorted : items.Pairwise fun x y => size y ≤ size x) (hsplit : items = before ++ x :: after)
    (hy : y ∈ items) (hlt : size x < size y) : y ∈ before := by
  rw [hsplit] at hsorted hy
  rcases List.mem_append.1 hy with hbefore | hy
  · exact hbefore
  · have hlate := (List.pairwise_cons.1 (List.pairwise_append.1 hsorted).2.1).1
    rcases List.mem_cons.1 hy with rfl | hafter
    · omega
    · have := hlate y hafter
      omega

/-- A pass goes over its items by descending size. If an item that is tried is spent, provided that
all larger items are spent, then all items that were visited are spent at any time. -/
theorem settled_sweep {α : Type} (f : State → α → State) (size : α → Nat)
    (Open : State → α → Prop) {items before after : List α}
    (htry : ∀ x ∈ items, ∀ s, Settled p s → (∀ y ∈ items, size x < size y → ¬ Open s y) →
      Settled p (f s x) ∧ ¬ Open (f s x) x)
    (hspent : ∀ x ∈ items, ∀ s, Settled p s → Settled p (f s x) → ∀ y, Open (f s x) y → Open s y)
    (hsorted : items.Pairwise fun x y => size y ≤ size x) (hsplit : items = before ++ after)
    (hs : Settled p s) :
    Settled p (before.foldl f s) ∧ ∀ x ∈ before, ¬ Open (before.foldl f s) x := by
  induction before using List.reverseRecOn generalizing after with
  | nil => exact ⟨hs, by simp⟩
  | append_singleton before x ih =>
    rw [List.append_assoc] at hsplit
    obtain ⟨hvisit, hdone⟩ := ih hsplit
    have hx : x ∈ items := by
      rw [hsplit]
      simp
    obtain ⟨hnext, htried⟩ := htry x hx _ hvisit fun y hy hlt =>
      hdone y (mem_before_of_larger size hsorted hsplit hy hlt)
    rw [List.foldl_append]
    refine ⟨hnext, fun y hy => ?_⟩
    rcases List.mem_append.1 hy with hbefore | hlast
    · exact fun hopen => hdone y hbefore (hspent x hx _ hvisit hnext y hopen)
    · rw [List.mem_singleton.1 hlast]
      exact htried

section Passes

variable (hp : p.Sound)

include hp

theorem not_matchable_of_pair? (hs : s.pair? p r c .exact = some s') (b : Nat) :
    ¬ Matchable p (settle p s').mapping r b := by
  intro hmatch
  obtain ⟨-, hinsert, -, -⟩ := State.pair?_eq_some hs
  have hr := (grows_settle hp.toOwn s').extension.unmatched hmatch.reference
  rw [Mapping.comparisonFor?_insert? hinsert, if_pos rfl] at hr
  simp at hr

/-- The pair of an anchor keeps the order of exact pairs if all larger anchors were tried before. -/
theorem orderly_of_anchor (hs : Settled p s) (hanchor : (r, c) ∈ p.anchors)
    (hlarger : ∀ a b, (a, b) ∈ p.anchors → p.reference.extent r < p.reference.extent a →
      ¬ Matchable p s.mapping a b)
    (hpair : s.pair? p r c .exact = some s') : Orderly p s' := by
  have habove : ∀ a, r ∈ p.reference.children a → ∀ b, ¬ Matchable p s.mapping a b := by
    intro a hra b hmatch
    exact hlarger a b (hp.mem_anchors_of_child hanchor hra hmatch.alike).2
      (extent_lt_of_mem_children hra) hmatch
  refine hs.of_pair? (hp.alike_of_mem_anchors hanchor) habove ?_ hpair
  intro b hcb a hmatch
  obtain ⟨x, hx, hxc⟩ := hp.exists_alike_reference_child hmatch.alike hcb
  rw [(hp.eq_of_alike_anchor hanchor).1 x hxc] at hx
  exact habove a hx b hmatch

theorem settled_anchorPair (hs : Settled p s) (hanchor : (r, c) ∈ p.anchors)
    (hlarger : ∀ a b, (a, b) ∈ p.anchors → p.reference.extent r < p.reference.extent a →
      ¬ Matchable p s.mapping a b) :
    Settled p (anchorPair p s (r, c)) ∧ ¬ Matchable p (anchorPair p s (r, c)).mapping r c := by
  unfold anchorPair
  split
  · rename_i htaken
    refine ⟨hs, fun hmatch => ?_⟩
    rw [Mapping.hasReference_eq_false_iff.2 hmatch.reference,
      Mapping.hasComparison_eq_false_iff.2 hmatch.comparison] at htaken
    simp at htaken
  · rename_i hfree
    rw [Bool.or_eq_true, not_or, Bool.not_eq_true, Bool.not_eq_true,
      Mapping.hasReference_eq_false_iff, Mapping.hasComparison_eq_false_iff] at hfree
    obtain ⟨s', hpair⟩ := hs.exact.exists_pair? hp
      ⟨hp.alike_of_mem_anchors hanchor, hfree.1, hfree.2⟩
    rw [hpair]
    exact ⟨settled_settle hp (orderly_of_anchor hp hs hanchor hlarger hpair),
      not_matchable_of_pair? hp hpair c⟩

/-- The anchors are paired larger ones first, so the invariant is kept throughout. -/
theorem settled_anchors_before (hs : Settled p s) {before after : List (Nat × Nat)}
    (hsplit : p.anchors = before ++ after) :
    Settled p (before.foldl (anchorPair p) s) ∧
      ∀ x ∈ before, ¬ Matchable p (before.foldl (anchorPair p) s).mapping x.1 x.2 := by
  refine settled_sweep (anchorPair p) (fun x => p.reference.extent x.1)
    (fun s x => Matchable p s.mapping x.1 x.2) ?_ ?_ hp.anchors_pairwise hsplit hs
  · rintro ⟨r, c⟩ hanchor s hs hlarger
    exact settled_anchorPair hp hs hanchor fun a b hab => hlarger (a, b) hab
  · intro x hx s hs hnext y
    exact matchable_of_grows hs.exact (grows_anchorPair hp.toOwn hx) hnext.exact

theorem settled_anchorPass (hs : Settled p s) : Settled p (anchorPass p s) :=
  (settled_anchors_before hp hs (List.append_nil _).symm).1

/-- Any exact pair keeps the order of exact pairs if all larger nodes were tried before. -/
theorem orderly_of_larger (hs : Settled p s) (halike : p.Alike r c)
    (hlarger : ∀ a < p.reference.size, p.reference.extent r < p.reference.extent a →
      ∀ b, ¬ Matchable p s.mapping a b)
    (hpair : s.pair? p r c .exact = some s') : Orderly p s' := by
  refine hs.of_pair? halike ?_ ?_ hpair
  · intro a hra b
    exact hlarger a (lt_size_of_mem_children hra).2 (extent_lt_of_mem_children hra) b
  · intro b hcb a hab
    refine hlarger a (hp.lt_sizes hab.alike).1 ?_ b hab
    rw [hp.extent_eq halike, hp.extent_eq hab.alike]
    exact extent_lt_of_mem_children hcb

theorem settled_pairBySignature (hs : Settled p s) (hr : r < p.reference.size)
    (hlarger : ∀ a < p.reference.size, p.reference.extent r < p.reference.extent a →
      ∀ b, ¬ Matchable p s.mapping a b) :
    Settled p (pairBySignature p s r) ∧
      ∀ b, ¬ Matchable p (pairBySignature p s r).mapping r b := by
  obtain ⟨free, hcases⟩ := pairBySignature_cases hp.toOwn s hr
  have hnoted := hs.congr (mapping_noteChoice s r free) (pending_noteChoice s r free)
  rw [← mapping_noteChoice s r free] at hlarger
  rcases hcases with ⟨hrefused, hsame⟩ | ⟨c, s', halike, hpair, hnext⟩
  · rw [hsame]
    refine ⟨hnoted, fun b hmatch => ?_⟩
    obtain ⟨s', hs'⟩ := hnoted.exact.exists_pair? hp hmatch
    rw [hrefused b hmatch.alike] at hs'
    cases hs'
  · rw [hnext]
    exact ⟨settled_settle hp (orderly_of_larger hp hnoted halike hlarger hpair),
      fun b => not_matchable_of_pair? hp hpair b⟩

theorem settled_signatures_before (hs : Settled p s) {before after : List Nat}
    (hsplit : p.largestFirst = before ++ after) :
    Settled p (before.foldl (pairBySignature p) s) ∧
      ∀ x ∈ before, ∀ b, ¬ Matchable p (before.foldl (pairBySignature p) s).mapping x b := by
  obtain ⟨hsettled, hspent⟩ := settled_sweep (pairBySignature p) p.reference.extent
    (fun s x => ∃ b, Matchable p s.mapping x b)
    (by
      intro r hr s hs hlarger
      obtain ⟨hnext, htried⟩ := settled_pairBySignature hp hs (Problem.mem_largestFirst.1 hr)
        fun a ha hlt b hmatch => hlarger a (Problem.mem_largestFirst.2 ha) hlt ⟨b, hmatch⟩
      exact ⟨hnext, fun ⟨b, hmatch⟩ => htried b hmatch⟩)
    (by
      intro r hr s hs hnext a hopen
      obtain ⟨b, hmatch⟩ := hopen
      have hgrows := grows_pairBySignature hp.toOwn (s := s) (Problem.mem_largestFirst.1 hr)
      exact ⟨b, matchable_of_grows hs.exact hgrows hnext.exact hmatch⟩)
    hp.largestFirst_pairwise hsplit hs
  exact ⟨hsettled, fun x hx b hmatch => hspent x hx ⟨b, hmatch⟩⟩

theorem settled_signaturePass (hs : Settled p s) :
    Settled p (signaturePass p s) ∧ Exhausted p (signaturePass p s).mapping := by
  obtain ⟨hsettled, hspent⟩ := settled_signatures_before hp hs (List.append_nil _).symm
  refine ⟨hsettled, fun r c hmatch => ?_⟩
  exact hspent r (Problem.mem_largestFirst.2 (hp.lt_sizes hmatch.alike).1) c hmatch

/-- The exact pairs of a run are settled and exhaust all alike nodes. -/
theorem settled_afterSignatures :
    Settled p (afterSignatures p) ∧ Exhausted p (afterSignatures p).mapping := by
  have hanchors : Settled p (afterAnchors p) :=
    (settled_anchorPass hp (.initial p)).congr rfl rfl
  obtain ⟨hsettled, hexhausted⟩ := settled_signaturePass hp hanchors
  exact ⟨hsettled.congr rfl rfl, hexhausted⟩

end Passes
end Concordance.Matching
