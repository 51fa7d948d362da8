import Concordance.Matching.Run
import Concordance.Proofs.Matching.Problem

/-!
# What the functions of a matching can do

Every function of a matching leaves a state as it is or accepts pairs, and what
is accepted is known: an exact pair is one of alike nodes, and a pair of the
later passes is one of the roots, of a candidate, or of definition sets and their
children. Here this is said once for every function. The invariants of a run are
derived from it, so none of them depends on how the functions are written.
-/
namespace Concordance.Matching

open Expression

variable {p : Problem} {m : Mapping} {s s' : State} {r c : Nat} {q : Quality}

namespace State

@[simp] theorem mapping_note (s : State) (e : Event) : (s.note e).mapping = s.mapping := rfl

@[simp] theorem pending_note (s : State) (e : Event) : (s.note e).pending = s.pending := rfl

@[simp] theorem mapping_ask (s : State) (side : Side) (table : SignatureTable) (nodes : List Nat) :
    (s.ask side table nodes).mapping = s.mapping := by
  unfold ask
  split <;> rfl

theorem ask_eq {side : Side} {table : SignatureTable} {nodes : List Nat}
    (h : ∀ n ∈ nodes, n < table.size) : s.ask side table nodes = s := by
  have hnone : nodes.find? (fun n => decide (table.size ≤ n)) = none := by
    rw [List.find?_eq_none]
    intro n hn
    rw [decide_eq_true_eq, Nat.not_le]
    exact h n hn
  unfold ask
  rw [hnone]
  cases s.gap <;> rfl

theorem pair?_eq_some (h : s.pair? p r c q = some s') :
    p.admits s.mapping r c = true ∧ s.mapping.insert? r c q = some s'.mapping ∧
      s'.pending = s.pending ++ [r] ∧ s'.gap = s.gap := by
  unfold pair? at h
  split at h
  · rename_i hadmits
    obtain ⟨m, hm, rfl⟩ := Option.map_eq_some_iff.1 h
    exact ⟨hadmits, hm, rfl, rfl⟩
  · simp at h

theorem log_pair? (h : s.pair? p r c q = some s') : s'.log = s.log ++ [.matched r c q] := by
  unfold pair? at h
  split at h
  · obtain ⟨m, -, rfl⟩ := Option.map_eq_some_iff.1 h
    rfl
  · simp at h

theorem exists_pair? (hadmits : p.admits s.mapping r c = true)
    (hinsert : s.mapping.insert? r c q = some m) : ∃ s', s.pair? p r c q = some s' := by
  unfold pair?
  rw [if_pos hadmits, hinsert]
  exact ⟨_, rfl⟩

theorem free_of_pair? (h : s.pair? p r c q ≠ none) :
    s.mapping.hasReference r = false ∧ s.mapping.hasComparison c = false := by
  obtain ⟨s', hs'⟩ := Option.ne_none_iff_exists'.1 h
  obtain ⟨hr, hc⟩ := Mapping.insert?_free (pair?_eq_some hs').2.1
  exact ⟨Mapping.hasReference_eq_false_iff.2 hr, Mapping.hasComparison_eq_false_iff.2 hc⟩

theorem pair_cases (p : Problem) (s : State) (r c : Nat) (q : Quality) :
    s.pair p r c q = s ∨ s.pair? p r c q = some (s.pair p r c q) := by
  unfold pair
  cases s.pair? p r c q with
  | none => exact .inl rfl
  | some s' => exact .inr rfl

end State

/-- The common parent of the partners of children is a node above the partner of each of them. -/
theorem commonParent?_eq_some {children : List Nat} (h : commonParent? p m children = some c) :
    ∃ child ∈ children, ∃ y ∈ p.comparison.children c, m.comparisonFor? child = some y := by
  cases children with
  | nil => simp [commonParent?] at h
  | cons child children =>
    cases hfound : m.correspondence? child with
    | none => simp [commonParent?, hfound] at h
    | some found =>
      have hpartner := Mapping.comparisonFor?_eq_some_iff.2 ⟨found.quality, hfound⟩
      by_cases hexact : found.quality = .exact
      · cases hparent : p.comparison.parent? found.comparison with
        | none => simp [commonParent?, hfound, hexact, hparent] at h
        | some parent =>
          obtain ⟨-, rfl⟩ : _ ∧ parent = c := by
            simpa [commonParent?, hfound, hexact, hparent] using h
          exact ⟨child, List.mem_cons_self, _, parent?_eq_some_iff.1 hparent, hpartner⟩
      · simp [commonParent?, hfound, hexact] at h

section Propagation

variable (hp : p.Own)

include hp

theorem ask_reference {nodes : List Nat} (h : ∀ n ∈ nodes, n < p.reference.size) :
    s.ask .reference p.referenceTable nodes = s :=
  State.ask_eq fun n hn => by rw [hp.size_referenceTable]; exact h n hn

theorem ask_comparison {nodes : List Nat} (h : ∀ n ∈ nodes, n < p.comparison.size) :
    s.ask .comparison p.comparisonTable nodes = s :=
  State.ask_eq fun n hn => by rw [hp.size_comparisonTable]; exact h n hn

/-- A child stays as it is or is paired with a free alike node. -/
theorem pairChild_cases {free : List Nat} {child : Nat} (hchild : child < p.reference.size)
    (hfree : ∀ n ∈ free, n < p.comparison.size) :
    pairChild p (s, free) child = (s, free) ∨
      ∃ y ∈ free, p.Alike child y ∧ ∃ s', s.pair? p child y .exact = some s' ∧
        pairChild p (s, free) child = (s', free.erase y) := by
  unfold pairChild
  dsimp only
  rw [ask_reference hp (by simpa using hchild), ask_comparison hp hfree]
  split
  · exact .inl rfl
  · split
    · rename_i s' c hfound
      obtain ⟨y, hy, hpair⟩ := List.exists_of_findSome?_eq_some hfound
      obtain ⟨t, ht, heq⟩ := Option.map_eq_some_iff.1 hpair
      obtain ⟨rfl, rfl⟩ := Prod.mk.inj heq
      obtain ⟨hmem, hagree⟩ := List.mem_filter.1 hy
      exact .inr ⟨y, hmem, hp.alike_of_signaturesAgree hchild hagree, t, ht, rfl⟩
    · exact .inl rfl

/-- What every exact pair of alike nodes keeps holds when the children of a pair are paired. -/
theorem pairChildren_induction {P : State → Prop}
    (hpair : ∀ t x y t', P t → p.Alike x y → t.pair? p x y .exact = some t' → P t') (hs : P s) :
    P (pairChildren p s r c) := by
  have hloop : ∀ (children free : List Nat) (s : State), P s →
      (∀ n ∈ children, n < p.reference.size) → (∀ n ∈ free, n < p.comparison.size) →
      P (children.foldl (pairChild p) (s, free)).1 := by
    intro children
    induction children with
    | nil => intro free s hs _ _; exact hs
    | cons x children ih =>
      intro free s hs hchildren hfree
      have hrest := fun n hn => hchildren n (List.mem_cons_of_mem x hn)
      rw [List.foldl_cons]
      rcases pairChild_cases hp (s := s) (hchildren x List.mem_cons_self) hfree with
        hstay | ⟨y, -, halike, s', haccepted, hnext⟩
      · rw [hstay]
        exact ih free s hs hrest hfree
      · rw [hnext]
        exact ih _ s' (hpair s x y s' hs halike haccepted) hrest
          fun n hn => hfree n (List.mem_of_mem_erase hn)
  unfold pairChildren
  dsimp only
  split
  · exact hs
  · refine hloop _ _ s hs (fun n hn => ?_) (fun n hn => ?_)
    · exact (lt_size_of_mem_children (mem_ascending.1 hn)).1
    · exact (lt_size_of_mem_children (List.mem_filter.1 (mem_ascending.1 hn)).1).1

/-- A node that is checked as a parent stays as it is or is paired with an alike node of its width,
the common parent of the partners of its children. -/
theorem checkParent_cases : checkParent p s r = s ∨
    ∃ c, commonParent? p s.mapping (p.reference.children r) = some c ∧
      (p.comparison.children c).length = (p.reference.children r).length ∧ p.Alike r c ∧
      s.pair? p r c .exact = some (checkParent p s r) := by
  unfold checkParent
  split
  · exact .inl rfl
  · split
    · exact .inl rfl
    · rename_i c hcommon
      obtain ⟨x, hx, y, hy, -⟩ := commonParent?_eq_some hcommon
      have hr := (lt_size_of_mem_children hx).2
      dsimp only
      rw [ask_reference hp (by simpa using hr),
        ask_comparison hp (by simpa using (lt_size_of_mem_children hy).2)]
      split
      · exact .inl rfl
      · rename_i hshape
        rw [Bool.or_eq_true, not_or, bne_iff_ne, ne_eq, not_not] at hshape
        split
        · rename_i hagree
          refine (State.pair_cases p s r c .exact).imp_right fun hpair => ?_
          exact ⟨c, hcommon, hshape.2, hp.alike_of_signaturesAgree hr hagree, hpair⟩
        · exact .inl rfl

end Propagation

/-- A step takes a node out of the queue and pairs its children, if it is matched, or checks a
parent when the queue is empty. -/
theorem step?_cases (h : step? p s = some s') :
    (∃ r rest, s.pending = r :: rest ∧ s.mapping.comparisonFor? r = none ∧
      s' = { s with pending := rest }) ∨
    (∃ r c rest, s.pending = r :: rest ∧ s.mapping.comparisonFor? r = some c ∧
      s' = pairChildren p { s with pending := rest } r c) ∨
    ∃ parent rest, s.pending = [] ∧ s.worklist.pop? = some (parent, rest) ∧
      s' = checkParent p { s with worklist := rest } parent := by
  unfold step? at h
  split at h
  · rename_i r rest hpending
    dsimp only at h
    split at h
    · rename_i hr
      exact .inl ⟨r, rest, hpending, hr, (Option.some.inj h).symm⟩
    · rename_i c hr
      exact .inr (.inl ⟨r, c, rest, hpending, hr, (Option.some.inj h).symm⟩)
  · rename_i hpending
    split at h
    · cases h
    · rename_i parent rest hpop
      exact .inr (.inr ⟨parent, rest, hpending, hpop, (Option.some.inj h).symm⟩)

theorem settle_of_none (h : step? p s = none) : settle p s = s := by
  rw [settle]
  split
  · rfl
  · rename_i hstep
    rw [h] at hstep
    simp at hstep

theorem settle_of_some (h : step? p s = some s') : settle p s = settle p s' := by
  rw [settle]
  split
  · rename_i hstep
    rw [h] at hstep
    simp at hstep
  · rename_i hstep
    rw [h] at hstep
    rw [Option.some.inj hstep]

/-- Settling ends when there is no step left. -/
theorem step?_settle (p : Problem) (s : State) : step? p (settle p s) = none := by
  induction s using settle.induct p with
  | case1 s hnone => rwa [settle_of_none hnone]
  | case2 s s' htaken ih => rwa [settle_of_some htaken]

theorem step?_eq_none_iff : step? p s = none ↔ s.pending = [] ∧ s.worklist.pop? = none := by
  unfold step?
  cases s.pending with
  | nil => cases s.worklist.pop? <;> simp
  | cons r rest =>
    dsimp only
    cases s.mapping.comparisonFor? r <;> simp

/-- What every step keeps holds when nothing is left to do. -/
theorem settle_induction {P : State → Prop} (hstep : ∀ s s', P s → step? p s = some s' → P s')
    (hs : P s) : P (settle p s) ∧ (settle p s).pending = [] := by
  refine ⟨?_, (step?_eq_none_iff.1 (step?_settle p s)).1⟩
  induction s using settle.induct p with
  | case1 s hnone => rwa [settle_of_none hnone]
  | case2 s s' htaken ih =>
    rw [settle_of_some htaken]
    exact ih (hstep s s' hs htaken)

theorem anchorPair_cases (s : State) (anchor : Nat × Nat) : anchorPair p s anchor = s ∨
    ∃ s', s.pair? p anchor.1 anchor.2 .exact = some s' ∧ anchorPair p s anchor = settle p s' := by
  unfold anchorPair
  split
  · exact .inl rfl
  · cases s.pair? p anchor.1 anchor.2 .exact with
    | none => exact .inl rfl
    | some s' => exact .inr ⟨s', rfl, rfl⟩

@[simp] theorem mapping_noteChoice (s : State) (r : Nat) (free : List Nat) :
    (noteChoice s r free).mapping = s.mapping := by
  unfold noteChoice
  split <;> rfl

@[simp] theorem pending_noteChoice (s : State) (r : Nat) (free : List Nat) :
    (noteChoice s r free).pending = s.pending := by
  unfold noteChoice
  split <;> rfl

/-- Pairing a node by its signature may note a choice. Then all alike nodes are refused, or one is
accepted and followed up. -/
theorem pairBySignature_cases (hp : p.Own) (s : State) (hr : r < p.reference.size) :
    ∃ free : List Nat,
      ((∀ c, p.Alike r c → (noteChoice s r free).pair? p r c .exact = none) ∧
        pairBySignature p s r = noteChoice s r free) ∨
      ∃ c s', p.Alike r c ∧ (noteChoice s r free).pair? p r c .exact = some s' ∧
        pairBySignature p s r = settle p s' := by
  unfold pairBySignature
  split
  · -- a matched node is refused for all alike nodes
    rename_i hmatched
    refine ⟨[], .inl ⟨fun c _ => ?_, rfl⟩⟩
    by_contra hpair
    have hfree := (State.free_of_pair? hpair).1
    rw [mapping_noteChoice, hmatched] at hfree
    cases hfree
  · obtain ⟨signature, hsignature⟩ := hp.exists_reference_get? hr
    dsimp only
    rw [ask_reference hp (by simpa using hr), hsignature]
    dsimp only
    have hmem : ∀ c, c ∈ (p.comparisonTable.nodesWith signature).filter
        (fun c => !s.mapping.hasComparison c) ↔
          p.Alike r c ∧ s.mapping.hasComparison c = false := by
      intro c
      rw [List.mem_filter, hp.mem_comparison_nodesWith, Problem.alike_iff hsignature,
        Bool.not_eq_true']
    generalize (p.comparisonTable.nodesWith signature).filter
      (fun c => !s.mapping.hasComparison c) = free at hmem
    refine ⟨free, ?_⟩
    cases hfound : free.findSome? fun c => (noteChoice s r free).pair? p r c .exact with
    | none =>
      refine .inl ⟨fun c halike => ?_, rfl⟩
      by_contra hpair
      have hfree := (State.free_of_pair? hpair).2
      rw [mapping_noteChoice] at hfree
      exact hpair (List.findSome?_eq_none_iff.1 hfound c ((hmem c).2 ⟨halike, hfree⟩))
    | some s' =>
      obtain ⟨c, hc, hpair⟩ := List.exists_of_findSome?_eq_some hfound
      exact .inr ⟨c, s', ((hmem c).1 hc).1, hpair, rfl⟩

/-- A node stays as it is or is paired with a candidate of enough overlap, which is noted and
followed up. -/
theorem pairByOverlap_cases (p : Problem) (s : State) (r : Nat) : pairByOverlap p s r = s ∨
    ∃ c overlap s', (c, overlap) ∈ rankedCandidates p s.mapping r ∧
      s.pair? p r c .approximate = some s' ∧
      pairByOverlap p s r = settle p (s'.note (.overlapped r c overlap)) := by
  unfold pairByOverlap
  split
  · exact .inl rfl
  · dsimp only
    split
    · exact .inl rfl
    · rename_i s' c overlap hfound
      obtain ⟨candidate, hcandidate, hpair⟩ := List.exists_of_findSome?_eq_some hfound
      obtain ⟨t, ht, heq⟩ := Option.map_eq_some_iff.1 hpair
      obtain ⟨rfl, rfl⟩ := Prod.mk.inj heq
      exact .inr ⟨c, overlap, t, hcandidate, ht, rfl⟩

theorem pairRoots_cases (p : Problem) (s : State) : pairRoots p s = s ∨
    s.pair? p p.reference.root p.comparison.root .approximate = some (pairRoots p s) := by
  unfold pairRoots
  split
  · exact .inl rfl
  · exact State.pair_cases p s _ _ _

/-- The pairs of the spine pass, before they are propagated. -/
def spinePairs (p : Problem) (s : State) : State :=
  let s := [Kind.necessarySet, .sufficientSet, .propertySet].foldl (pairSets p) (pairRoots p s)
  if p.config.connectSpine then (referenceSets p).foldl (connectSet p) s else s

/-- Two definition sets of one kind, one below either root. -/
structure TopSets (reference comparison : Expression) (x y : Nat) : Prop where
  kinds : ∃ kind : Kind, kind.isSet = true ∧ reference.kind? x = some kind ∧
    comparison.kind? y = some kind
  reference : x ∈ reference.children reference.root
  comparison : y ∈ comparison.children comparison.root

/-- A child of a definition set below the reference root and a child of its partner, both unmatched,
which the spine pass pairs on request. -/
structure BelowSets (p : Problem) (m : Mapping) (a b x y : Nat) : Prop where
  requested : p.config.connectSpine = true
  top : a ∈ p.reference.children p.reference.root
  set : ∃ kind : Kind, kind.isSet = true ∧ p.reference.kind? a = some kind
  partners : m.comparisonFor? a = some b
  reference : x ∈ p.reference.children a
  comparison : y ∈ p.comparison.children b
  unmatched : m.comparisonFor? x = none
  free : m.referenceFor? y = none

theorem isSet_of_mem_kinds {kind : Kind}
    (h : kind ∈ [Kind.necessarySet, .sufficientSet, .propertySet]) : kind.isSet = true := by
  simp only [List.mem_cons, List.not_mem_nil, or_false] at h
  rcases h with rfl | rfl | rfl <;> rfl

theorem topSets_of_mem_zip {kind : Kind} {sets : Nat × Nat} (hkind : kind.isSet = true)
    (h : sets ∈ (unmatchedReferenceSets p m kind).zip (unmatchedComparisonSets p m kind)) :
    TopSets p.reference p.comparison sets.1 sets.2 := by
  obtain ⟨hr, hc⟩ := List.of_mem_zip (a := sets.1) (b := sets.2) h
  rw [unmatchedReferenceSets, mem_ascending, List.mem_filter, Bool.and_eq_true, beq_iff_eq] at hr
  rw [unmatchedComparisonSets, mem_ascending, List.mem_filter, Bool.and_eq_true, beq_iff_eq] at hc
  exact ⟨⟨kind, hkind, hr.2.1, hc.2.1⟩, hr.1, hc.1⟩

theorem mem_referenceSets {a : Nat} : a ∈ referenceSets p ↔
    a ∈ p.reference.children p.reference.root ∧
      ∃ kind : Kind, kind.isSet = true ∧ p.reference.kind? a = some kind := by
  rw [referenceSets, mem_ascending, List.mem_filter]
  cases p.reference.kind? a <;> simp

/-- The first children of a definition set and of its partner, if both are unmatched. -/
def connected? (p : Problem) (m : Mapping) (a : Nat) : Option (Nat × Nat) := do
  let b ← m.comparisonFor? a
  let x ← (p.reference.children a).head?
  let y ← (p.comparison.children b).head?
  if m.hasReference x || m.hasComparison y then none else some (x, y)

theorem connectSet_eq (s : State) (a : Nat) : connectSet p s a =
    match connected? p s.mapping a with
    | none => s
    | some pair => s.pair p pair.1 pair.2 .approximate := by
  unfold connectSet connected?
  cases s.mapping.comparisonFor? a with
  | none => rfl
  | some b =>
    cases (p.reference.children a).head? with
    | none => rfl
    | some x =>
      cases hy : (p.comparison.children b).head? with
      | none => simp [hy]
      | some y =>
        simp only [hy, Option.bind_eq_bind, Option.bind_some]
        split <;> rfl

theorem belowSets_of_connected? {a : Nat} {pair : Nat × Nat}
    (hrequested : p.config.connectSpine = true) (ha : a ∈ referenceSets p)
    (h : connected? p m a = some pair) : ∃ b, BelowSets p m a b pair.1 pair.2 := by
  unfold connected? at h
  obtain ⟨b, hb, x, hx, y, hy, h⟩ : ∃ b, m.comparisonFor? a = some b ∧
      ∃ x, (p.reference.children a).head? = some x ∧
      ∃ y, (p.comparison.children b).head? = some y ∧
        (if m.hasReference x || m.hasComparison y then none else some (x, y)) = some pair := by
    simpa only [Option.bind_eq_bind, Option.bind_eq_some_iff] using h
  split at h
  · cases h
  · rename_i hopen
    obtain rfl := Option.some.inj h
    rw [Bool.or_eq_true, not_or, Bool.not_eq_true, Bool.not_eq_true,
      Mapping.hasReference_eq_false_iff, Mapping.hasComparison_eq_false_iff] at hopen
    obtain ⟨htop, hset⟩ := mem_referenceSets.1 ha
    exact ⟨b, hrequested, htop, hset, hb, List.mem_of_head? hx, List.mem_of_head? hy, hopen.1,
      hopen.2⟩

/-- Behind the roots the spine pass only pairs definition sets below the roots and children of two
such sets, and what such pairs keep it keeps. -/
theorem spinePairs_induction {P : State → Prop}
    (hsets : ∀ t x y, P t → TopSets p.reference p.comparison x y → P (t.pair p x y .approximate))
    (hbelow : ∀ t a b x y, P t → BelowSets p t.mapping a b x y → P (t.pair p x y .approximate))
    (hs : P (pairRoots p s)) : P (spinePairs p s) := by
  have hpairSets : ∀ t, P t → ∀ kind : Kind, kind.isSet = true → P (pairSets p t kind) :=
    fun t ht kind hkind => List.foldlRecOn _ _ ht fun u hu sets hmem =>
      hsets u _ _ hu (topSets_of_mem_zip hkind hmem)
  have hconnectSet : p.config.connectSpine = true → ∀ t, P t → ∀ a ∈ referenceSets p,
      P (connectSet p t a) := by
    intro hrequested t ht a ha
    rw [connectSet_eq]
    cases h : connected? p t.mapping a with
    | none => exact ht
    | some pair =>
      obtain ⟨b, hpair⟩ := belowSets_of_connected? hrequested ha h
      exact hbelow t a b _ _ ht hpair
  have hpaired := List.foldlRecOn (motive := P) [Kind.necessarySet, .sufficientSet, .propertySet]
    (pairSets p) hs fun t ht kind hmem => hpairSets t ht kind (isSet_of_mem_kinds hmem)
  unfold spinePairs
  dsimp only
  split
  · rename_i hrequested
    exact List.foldlRecOn _ _ hpaired fun t ht a ha => hconnectSet hrequested t ht a ha
  · exact hpaired

end Concordance.Matching
