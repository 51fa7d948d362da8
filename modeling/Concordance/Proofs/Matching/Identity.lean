import Concordance.Proofs.Matching.Crossing
import Concordance.Proofs.Matching.Exhaustion

/-!
# Matching an expression with itself

Matched with itself, an expression gives every node itself as its partner, even if
nodes have the same signature. All ties are broken in the same way on both sides:
as long as every pair is one of a node with itself, the children that are free are
the same on both sides, so in ascending order each one finds itself first. And
since the root is larger than all other nodes, it is tried before any tie between
nodes that are not siblings comes up, and its pair is handed down to every node.
Digests may collide without making a difference to this.
-/
namespace Concordance

theorem ascending_filter (q : Nat → Bool) (xs : List Nat) :
    ascending (xs.filter q) = (ascending xs).filter q :=
  List.Perm.eq_of_pairwise (fun _ _ _ _ => Nat.le_antisymm) (ascending_pairwise _)
    ((ascending_pairwise xs).filter q)
    ((ascending_perm _).trans ((ascending_perm xs).filter q).symm)

/-- All pairs of a mapping are exact pairs of a node with itself. -/
def Mapping.IsDiagonal (m : Mapping) : Prop :=
  ∀ r found, m.correspondence? r = some found → found = ⟨r, .exact⟩

namespace Matching

open Expression

variable {p : Problem} {m : Mapping} {s s' t : State} {r c x : Nat} {xs free : List Nat}

/-- The problem of matching an expression with itself. -/
structure Problem.Mirrored (p : Problem) : Prop extends p.Own where
  same : p.comparison = p.reference

theorem mirrored_ofExpressions (e : Expression) (config : Config) :
    (Problem.ofExpressions e e config).Mirrored :=
  ⟨Problem.own_ofExpressions e e config, rfl⟩

theorem Problem.Mirrored.alike_self (hp : p.Mirrored) (hr : r < p.reference.size) :
    p.Alike r r :=
  hp.alike_of_get?_eq hr (by rw [hp.referenceTable, hp.comparisonTable, hp.same])

/-- A partial bijection of an expression with itself along which every pair is one of a node with
itself. -/
structure Diagonal (p : Problem) (m : Mapping) : Prop where
  valid : m.Valid p.reference.size p.comparison.size
  pairs : m.IsDiagonal

namespace Diagonal

theorem empty (p : Problem) : Diagonal p (.empty p.reference.size p.comparison.size) where
  valid := .empty
  pairs r found h := by
    rw [Mapping.correspondence?_empty] at h
    cases h

theorem eq_of_comparisonFor? (hm : Diagonal p m) (h : m.comparisonFor? r = some c) : c = r := by
  obtain ⟨q, hq⟩ := Mapping.comparisonFor?_eq_some_iff.1 h
  exact (Correspondence.mk.inj (hm.pairs r _ hq)).1

theorem hasComparison_eq (hm : Diagonal p m) (x : Nat) : m.hasComparison x = m.hasReference x := by
  rw [Bool.eq_iff_iff, Mapping.hasComparison_iff, Mapping.hasReference_iff]
  constructor
  · rintro ⟨r, hr⟩
    have hpair := (hm.valid.agree r x).2 hr
    obtain rfl := hm.eq_of_comparisonFor? hpair
    exact ⟨x, hpair⟩
  · rintro ⟨c, hc⟩
    obtain rfl := hm.eq_of_comparisonFor? hc
    exact ⟨c, (hm.valid.agree c c).1 hc⟩

/-- An unmatched node is accepted as its own partner: no ancestor of it is below it. -/
theorem exists_pair? (hp : p.Mirrored) (hs : Diagonal p s.mapping) (hr : r < p.reference.size)
    (hfree : s.mapping.hasReference r = false) : ∃ s', s.pair? p r r .exact = some s' := by
  have hsize : r < p.comparison.size := hp.same ▸ hr
  have hfree' : s.mapping.hasComparison r = false := (hs.hasComparison_eq r).trans hfree
  obtain ⟨m, hm⟩ := hs.valid.exists_insert? hr hsize (Mapping.hasReference_eq_false_iff.1 hfree)
    (Mapping.hasComparison_eq_false_iff.1 hfree') .exact
  refine State.exists_pair? ?_ hm
  have hinverts : p.inverts s.mapping r r = false := by
    rw [← Bool.not_eq_true, hp.inverts_iff hs.valid hr hsize]
    rintro ⟨x, y, hxy, hcross⟩
    obtain rfl := hs.eq_of_comparisonFor? hxy
    have hy := (hs.valid.lt_sizes hxy).1
    rw [Problem.Crosses, hp.same] at hcross
    rcases hcross with ⟨habove, hbelow⟩ | ⟨hbelow, habove⟩ <;>
    · have hdeeper := (depth_lt_of_isAncestor hr habove).2
      have hhigher := (depth_lt_of_isAncestor hy hbelow).2
      omega
  rw [Problem.admits, Problem.kindsAgree, hp.same, hinverts, BEq.rfl, Bool.and_false]
  rfl

theorem of_pair? (hs : Diagonal p s.mapping) (h : s.pair? p r r .exact = some s') :
    Diagonal p s'.mapping := by
  obtain ⟨-, hinsert, -, -⟩ := State.pair?_eq_some h
  refine ⟨hs.valid.insert hinsert, fun x found hx => ?_⟩
  rw [Mapping.correspondence?_insert? hinsert] at hx
  split at hx
  · rename_i heq
    rw [heq, Option.some.inj hx]
  · exact hs.pairs x found hx

end Diagonal

structure Spreads (s t : State) : Prop where
  extension : t.mapping.Extends s.mapping
  waiting : ∀ r ∈ s.pending, r ∈ t.pending
  fresh : ∀ r, t.mapping.hasReference r = true → s.mapping.hasReference r = true ∨ r ∈ t.pending

namespace Spreads

theorem refl (s : State) : Spreads s s :=
  ⟨.refl _, fun _ h => h, fun _ h => .inl h⟩

theorem trans {u : State} (h : Spreads s t) (h' : Spreads t u) : Spreads s u where
  extension := h'.extension.trans h.extension
  waiting r hr := h'.waiting r (h.waiting r hr)
  fresh r hr := by
    rcases h'.fresh r hr with hold | hnew
    · exact (h.fresh r hold).imp_right (h'.waiting r)
    · exact .inr hnew

theorem of_pair? {q : Quality} (h : s.pair? p r c q = some s') : Spreads s s' := by
  obtain ⟨-, hinsert, hpending, -⟩ := State.pair?_eq_some h
  refine ⟨.of_insert? hinsert, fun x hx => by rw [hpending]; exact List.mem_append_left _ hx,
    fun x hx => ?_⟩
  rw [Mapping.hasReference, Mapping.correspondence?_insert? hinsert] at hx
  split at hx
  · rename_i heq
    rw [heq, hpending]
    exact .inr (List.mem_append_right _ (List.mem_singleton_self r))
  · exact .inl hx

end Spreads

/-- What holds of every state while an expression is matched with itself. -/
structure Mirrors (p : Problem) (s : State) : Prop where
  diagonal : Diagonal p s.mapping
  handed : ∀ r, s.mapping.hasReference r = true → r ∈ s.pending ∨
    ∀ x ∈ p.reference.children r, s.mapping.hasReference x = true

/-- The invariant only reads the mapping and what is pending. -/
theorem Mirrors.congr (hs : Mirrors p s) (hmapping : s'.mapping = s.mapping)
    (hpending : s'.pending = s.pending) : Mirrors p s' := by
  obtain ⟨hdiagonal, hhanded⟩ := hs
  rw [← hmapping] at hdiagonal hhanded
  rw [← hpending] at hhanded
  exact ⟨hdiagonal, hhanded⟩

theorem Mirrors.of_pair? (hs : Mirrors p s) (h : s.pair? p r r .exact = some s') :
    Mirrors p s' := by
  have hspreads := Spreads.of_pair? h
  refine ⟨hs.diagonal.of_pair? h, fun a ha => ?_⟩
  rcases hspreads.fresh a ha with hold | hnew
  · refine (hs.handed a hold).imp (hspreads.waiting a) fun hchildren x hx => ?_
    exact hspreads.extension.hasReference (hchildren x hx)
  · exact .inl hnew

section Steps

variable (hp : p.Mirrored)

include hp

/-- The first free child is its own partner. -/
theorem pairChild_head (hs : Diagonal p s.mapping) (hx : ∀ n ∈ x :: xs, n < p.reference.size)
    (hfree : s.mapping.hasReference x = false) :
    ∃ s', s.pair? p x x .exact = some s' ∧ pairChild p (s, x :: xs) x = (s', xs) := by
  have hsize := hx x List.mem_cons_self
  obtain ⟨s', hs'⟩ := hs.exists_pair? hp hsize hfree
  refine ⟨s', hs', ?_⟩
  have hagree := (hp.alike_self hsize).signaturesAgree
  unfold pairChild
  dsimp only
  rw [ask_reference hp.toOwn (by simpa using hsize),
    ask_comparison hp.toOwn (fun n hn => hp.same ▸ hx n hn), hfree,
    List.filter_cons_of_pos hagree, List.findSome?_cons, hs']
  simp

/-- Of a list of children, each one that is free is paired with itself. -/
theorem foldl_pairChild_self (hs : Diagonal p s.mapping) (hnodup : xs.Nodup)
    (hxs : ∀ x ∈ xs, x < p.reference.size)
    (hfree : free = xs.filter fun x => !s.mapping.hasReference x) :
    Diagonal p (xs.foldl (pairChild p) (s, free)).1.mapping ∧
      Spreads s (xs.foldl (pairChild p) (s, free)).1 ∧
      ∀ x ∈ xs, (xs.foldl (pairChild p) (s, free)).1.mapping.hasReference x = true := by
  induction xs generalizing s free with
  | nil => exact ⟨hs, .refl s, by simp⟩
  | cons x xs ih =>
    obtain ⟨hx, hnodup⟩ := List.nodup_cons.1 hnodup
    have hrest := fun y hy => hxs y (List.mem_cons_of_mem x hy)
    rw [List.foldl_cons]
    cases hmatched : s.mapping.hasReference x with
    | true =>
      rw [List.filter_cons_of_neg (by simp [hmatched])] at hfree
      have hskip : pairChild p (s, free) x = (s, free) := by simp [pairChild, hmatched]
      obtain ⟨hdiagonal, hspreads, hall⟩ := ih hs hnodup hrest hfree
      rw [hskip]
      refine ⟨hdiagonal, hspreads, fun y hy => ?_⟩
      rcases List.mem_cons.1 hy with rfl | hy
      · exact hspreads.extension.hasReference hmatched
      · exact hall y hy
    | false =>
      -- the free nodes are those of the rest that are unmatched, so x is the first of them
      rw [List.filter_cons_of_pos (by simp [hmatched])] at hfree
      subst hfree
      have hin : ∀ n ∈ x :: xs.filter (fun y => !s.mapping.hasReference y),
          n < p.reference.size := by
        intro n hn
        apply hxs
        rcases List.mem_cons.1 hn with rfl | hn
        · exact List.mem_cons_self
        · exact List.mem_cons_of_mem x (List.mem_filter.1 hn).1
      obtain ⟨s', hpair, hchild⟩ := pairChild_head hp hs hin hmatched
      obtain ⟨-, hinsert, -, -⟩ := State.pair?_eq_some hpair
      have hfree' : xs.filter (fun y => !s.mapping.hasReference y) =
          xs.filter fun y => !s'.mapping.hasReference y := by
        apply List.filter_congr
        intro y hy
        have hyx : y ≠ x := fun h => hx (h ▸ hy)
        rw [Mapping.hasReference, Mapping.hasReference, Mapping.correspondence?_insert? hinsert,
          if_neg hyx]
      obtain ⟨hdiagonal, hspreads, hall⟩ := ih (hs.of_pair? hpair) hnodup hrest hfree'
      rw [hchild]
      refine ⟨hdiagonal, (Spreads.of_pair? hpair).trans hspreads, fun y hy => ?_⟩
      rcases List.mem_cons.1 hy with rfl | hy
      · apply hspreads.extension.hasReference
        rw [Mapping.hasReference, Mapping.correspondence?_insert? hinsert, if_pos rfl,
          Option.isSome_some]
      · exact hall y hy

theorem pairChildren_self (hs : Diagonal p s.mapping) :
    Diagonal p (pairChildren p s r r).mapping ∧ Spreads s (pairChildren p s r r) ∧
      ∀ x ∈ p.reference.children r, (pairChildren p s r r).mapping.hasReference x = true := by
  have hfree : ascending ((p.comparison.children r).filter fun x => !s.mapping.hasComparison x) =
      (ascending (p.reference.children r)).filter fun x => !s.mapping.hasReference x := by
    rw [ascending_filter, hp.same, List.filter_congr fun x _ => by rw [hs.hasComparison_eq]]
  obtain ⟨hdiagonal, hspreads, hall⟩ := foldl_pairChild_self hp hs
    ((ascending_perm _).nodup_iff.2 (p.reference.children_nodup r))
    (fun x hx => (lt_size_of_mem_children (mem_ascending.1 hx)).1) hfree
  unfold pairChildren
  dsimp only
  split
  · rename_i hempty
    refine ⟨hs, .refl s, fun x hx => ?_⟩
    rw [List.isEmpty_iff, hfree, List.filter_eq_nil_iff] at hempty
    simpa using hempty x (mem_ascending.2 hx)
  · exact ⟨hdiagonal, hspreads, fun x hx => hall x (mem_ascending.2 hx)⟩

theorem mirrors_checkParent (hs : Mirrors p s) : Mirrors p (checkParent p s r) := by
  rcases checkParent_cases hp.toOwn (s := s) (r := r) with hsame | ⟨c, hcommon, -, -, hpair⟩
  · rwa [hsame]
  · obtain ⟨x, hx, y, hy, hxy⟩ := commonParent?_eq_some hcommon
    obtain rfl := hs.diagonal.eq_of_comparisonFor? hxy
    rw [hp.same] at hy
    obtain rfl := parent_unique hx hy
    exact hs.of_pair? hpair

theorem mirrors_step? (hs : Mirrors p s) (h : step? p s = some s') : Mirrors p s' := by
  have hqueue : ∀ {r rest}, s.pending = r :: rest → ∀ a ∈ s.pending, a = r ∨ a ∈ rest := by
    intro r rest hpending a ha
    rw [hpending] at ha
    exact List.mem_cons.1 ha
  rcases step?_cases h with ⟨r, rest, hpending, hnone, rfl⟩ | ⟨r, c, rest, hpending, hc, rfl⟩ |
    ⟨parent, rest, -, -, rfl⟩
  · refine ⟨hs.diagonal, fun a ha => (hs.handed a ha).imp_left fun hmem => ?_⟩
    refine (hqueue hpending a hmem).resolve_left ?_
    rintro rfl
    rw [Mapping.hasReference_eq_false_iff.2 hnone] at ha
    cases ha
  · obtain rfl := hs.diagonal.eq_of_comparisonFor? hc
    obtain ⟨hdiagonal, hspreads, hall⟩ :=
      pairChildren_self hp (s := { s with pending := rest }) (r := c) hs.diagonal
    -- c has been handed down, an older pair still waits or was handed down, a new one waits
    refine ⟨hdiagonal, fun a ha => ?_⟩
    rcases hspreads.fresh a ha with hold | hnew
    · rcases hs.handed a hold with hmem | hchildren
      · rcases hqueue hpending a hmem with rfl | hmem
        · exact .inr hall
        · exact .inl (hspreads.waiting a hmem)
      · exact .inr fun x hx => hspreads.extension.hasReference (hchildren x hx)
    · exact .inl hnew
  · exact mirrors_checkParent hp (s := { s with worklist := rest }) (hs.congr rfl rfl)

theorem mirrors_settle (hs : Mirrors p s) :
    Mirrors p (settle p s) ∧ (settle p s).pending = [] :=
  settle_induction (fun _ _ h => mirrors_step? hp h) hs

theorem anchor_self {anchor : Nat × Nat} (h : anchor ∈ p.anchors) : anchor.2 = anchor.1 := by
  obtain ⟨signature, hr, hc⟩ := hp.mem_anchors_iff.1 h
  rw [hp.comparisonTable, hp.same, ← hp.referenceTable, hr] at hc
  exact (List.singleton_inj.1 hc).symm

theorem mirrors_anchorPair {anchor : Nat × Nat} (hanchor : anchor ∈ p.anchors)
    (hs : Mirrors p s) (hpending : s.pending = []) :
    Mirrors p (anchorPair p s anchor) ∧ (anchorPair p s anchor).pending = [] := by
  rcases anchorPair_cases s anchor with hsame | ⟨s', hpair, hnext⟩
  · rw [hsame]
    exact ⟨hs, hpending⟩
  · rw [anchor_self hp hanchor] at hpair
    rw [hnext]
    exact mirrors_settle hp (hs.of_pair? hpair)

theorem mirrors_afterAnchors :
    Mirrors p (afterAnchors p) ∧ (afterAnchors p).pending = [] := by
  have hinitial : Mirrors p (.initial p) := by
    refine ⟨.empty p, fun r hr => ?_⟩
    obtain ⟨c, hc⟩ := Mapping.hasReference_iff.1 hr
    simp [State.initial] at hc
  have hpass : Mirrors p (anchorPass p (.initial p)) ∧ (anchorPass p (.initial p)).pending = [] :=
    List.foldlRecOn (motive := fun t : State => Mirrors p t ∧ t.pending = []) p.anchors _
      ⟨hinitial, rfl⟩ fun t ht anchor hanchor => mirrors_anchorPair hp hanchor ht.1 ht.2
  exact ⟨hpass.1.congr rfl rfl, hpass.2⟩

omit hp in
/-- The root is larger than all other nodes. -/
theorem largestFirst_eq (hp : p.Own) : ∃ rest, p.largestFirst = p.reference.root :: rest := by
  have hroot := Problem.mem_largestFirst.2 p.reference.root_lt_size
  have hsorted := hp.largestFirst_pairwise
  have hsizes := fun x => (Problem.mem_largestFirst (p := p) (r := x)).1
  cases hlist : p.largestFirst with
  | nil =>
    rw [hlist] at hroot
    cases hroot
  | cons a rest =>
    rw [hlist] at hroot hsorted hsizes
    refine ⟨rest, ?_⟩
    rcases List.mem_cons.1 hroot with heq | hmem
    · rw [heq]
    · have hle := (List.pairwise_cons.1 hsorted).1 _ hmem
      have ha := hsizes a List.mem_cons_self
      rcases inSubtree_root ha with heq | habove
      · rw [heq]
      · have := extent_lt_of_isAncestor ha habove
        omega

/-- The root is paired with itself, because no other node is of its kind. -/
theorem mirrors_pairBySignature_root (hs : Mirrors p s) (hpending : s.pending = []) :
    (Mirrors p (pairBySignature p s p.reference.root) ∧
      (pairBySignature p s p.reference.root).pending = []) ∧
    (pairBySignature p s p.reference.root).mapping.hasReference p.reference.root = true := by
  have hroot := p.reference.root_lt_size
  obtain ⟨free, hcases⟩ := pairBySignature_cases hp.toOwn s hroot
  have hqueue := pending_noteChoice s p.reference.root free
  have hnoted := hs.congr (mapping_noteChoice s p.reference.root free) hqueue
  rcases hcases with ⟨hrefused, hsame⟩ | ⟨c, s', -, hpair, hnext⟩
  · rw [hsame]
    refine ⟨⟨hnoted, hqueue.trans hpending⟩, ?_⟩
    by_contra hfree
    rw [Bool.not_eq_true] at hfree
    have hself : p.Alike p.reference.root p.reference.root := hp.alike_self hroot
    obtain ⟨s', hs'⟩ := hnoted.diagonal.exists_pair? hp hroot hfree
    rw [hrefused _ hself] at hs'
    cases hs'
  · obtain ⟨hadmits, hinsert, -, -⟩ := State.pair?_eq_some hpair
    rw [Problem.admits, Bool.and_eq_true, Problem.kindsAgree, beq_iff_eq, hp.same,
      kind?_eq_root_iff.2 rfl] at hadmits
    obtain rfl := kind?_eq_root_iff.1 hadmits.1.symm
    rw [hnext]
    refine ⟨mirrors_settle hp (hnoted.of_pair? hpair), ?_⟩
    apply (grows_settle hp.toOwn s').extension.hasReference
    rw [Mapping.hasReference, Mapping.correspondence?_insert? hinsert, if_pos rfl,
      Option.isSome_some]

omit hp in
/-- When nothing is waiting, the pair of the root has been handed down to every node. -/
theorem Mirrors.correspondence?_eq (hs : Mirrors p s) (hpending : s.pending = [])
    (hroot : s.mapping.hasReference p.reference.root = true) {n : Nat}
    (hn : n < p.reference.size) : s.mapping.correspondence? n = some ⟨n, .exact⟩ := by
  have hmatched : s.mapping.hasReference n = true := by
    induction n, hn using induction_down with
    | root => exact hroot
    | child a x hx ih =>
      refine (hs.handed a ih).resolve_left ?_ x hx
      rw [hpending]
      exact List.not_mem_nil
  obtain ⟨found, hfound⟩ := Option.isSome_iff_exists.1 hmatched
  rw [hfound, hs.diagonal.pairs n found hfound]

theorem correspondence?_run_self {n : Nat} (hn : n < p.reference.size) :
    (run p).mapping.correspondence? n = some ⟨n, .exact⟩ := by
  obtain ⟨hanchors, hpending⟩ := mirrors_afterAnchors hp
  obtain ⟨⟨hs, hpending⟩, hroot⟩ := mirrors_pairBySignature_root hp hanchors hpending
  obtain ⟨rest, hrest⟩ := largestFirst_eq hp.toOwn
  have hpass : Grows p (pairBySignature p (afterAnchors p) p.reference.root)
      (signaturePass p (afterAnchors p)) := by
    rw [signaturePass, hrest]
    refine .foldl _ rest (fun x hx t => ?_) _
    apply grows_pairBySignature hp.toOwn
    rw [← Problem.mem_largestFirst, hrest]
    exact List.mem_cons_of_mem _ hx
  have hgrows : Grows p (pairBySignature p (afterAnchors p) p.reference.root) (run p) :=
    ((hpass.trans (.note _ rfl)).trans (grows_afterOverlap hp.toOwn)).trans
      ((grows_spinePass hp.toOwn _).trans (.note _ rfl))
  exact hgrows.extension n _ (hs.correspondence?_eq hpending hroot hn)

end Steps

end Matching
end Concordance
