import Concordance.Proofs.Matching.Trials

/-!
# Exact pairs and their children

While only exact pairs are made, two things hold of every state. If two alike
nodes are both unmatched, so are all their children. And a pair either has its
children paired with each other, or it is waiting and its children are all
unmatched. Propagation keeps both: the children of a waiting pair have the same
signatures on either side, so each of them finds a partner, and a parent that is
checked has a matched child and so is not alike to any unmatched node.
-/
namespace Concordance.Matching

open Expression

variable {p : Problem} {m m' : Mapping} {s s' : State} {r c x y : Nat} {xs ys : List Nat}

/-- A mapping all of whose pairs are exact, between alike nodes. -/
structure Exact (p : Problem) (m : Mapping) : Prop where
  valid : m.Valid p.reference.size p.comparison.size
  pairs : ∀ r c q, m.correspondence? r = some ⟨c, q⟩ → q = .exact ∧ p.Alike r c

/-- Two alike nodes that are both unmatched. -/
structure Matchable (p : Problem) (m : Mapping) (r c : Nat) : Prop where
  alike : p.Alike r c
  reference : m.comparisonFor? r = none
  comparison : m.referenceFor? c = none

/-- All children of two nodes are unmatched. -/
structure ChildrenFree (p : Problem) (m : Mapping) (r c : Nat) : Prop where
  reference : ∀ x ∈ p.reference.children r, m.comparisonFor? x = none
  comparison : ∀ y ∈ p.comparison.children c, m.referenceFor? y = none

/-- The children of two nodes are exact pairs with each other. -/
structure ChildrenPaired (p : Problem) (m : Mapping) (r c : Nat) : Prop where
  reference : ∀ x ∈ p.reference.children r,
    ∃ y ∈ p.comparison.children c, m.correspondence? x = some ⟨y, .exact⟩
  comparison : ∀ y ∈ p.comparison.children c,
    ∃ x ∈ p.reference.children r, m.correspondence? x = some ⟨y, .exact⟩

namespace Exact

theorem empty (p : Problem) : Exact p (.empty p.reference.size p.comparison.size) where
  valid := .empty
  pairs r c q h := by
    rw [Mapping.correspondence?_empty] at h
    simp at h

theorem alike (hm : Exact p m) (h : m.comparisonFor? r = some c) : p.Alike r c := by
  obtain ⟨q, hq⟩ := Mapping.comparisonFor?_eq_some_iff.1 h
  exact (hm.pairs r c q hq).2

theorem correspondence? (hm : Exact p m) (h : m.comparisonFor? r = some c) :
    m.correspondence? r = some ⟨c, .exact⟩ := by
  obtain ⟨q, hq⟩ := Mapping.comparisonFor?_eq_some_iff.1 h
  rw [hq, (hm.pairs r c q hq).1]

/-- Alike nodes that are unmatched are accepted as an exact pair. -/
theorem exists_pair? (hp : p.Sound) (hs : Exact p s.mapping) (h : Matchable p s.mapping r c) :
    ∃ s', s.pair? p r c .exact = some s' := by
  obtain ⟨hr, hc⟩ := hp.lt_sizes h.alike
  obtain ⟨m, hm⟩ := hs.valid.exists_insert? hr hc h.reference h.comparison .exact
  exact State.exists_pair? (hp.admits_of_alike hs.valid (fun _ _ => hs.alike) h.alike) hm

theorem of_pair? (hs : Exact p s.mapping) (halike : p.Alike r c)
    (h : s.pair? p r c .exact = some s') : Exact p s'.mapping := by
  obtain ⟨-, hinsert, -, -⟩ := State.pair?_eq_some h
  refine ⟨hs.valid.insert hinsert, fun x y q hxy => ?_⟩
  rw [Mapping.correspondence?_insert? hinsert] at hxy
  split at hxy
  · rename_i hx
    obtain ⟨rfl, rfl⟩ := Correspondence.mk.inj (Option.some.inj hxy)
    rw [hx]
    exact ⟨rfl, halike⟩
  · exact hs.pairs x y q hxy

end Exact

theorem Matchable.of_extends (hm : m.Valid p.reference.size p.comparison.size)
    (hm' : m'.Valid p.reference.size p.comparison.size) (h : m'.Extends m)
    (hmatch : Matchable p m' r c) : Matchable p m r c :=
  ⟨hmatch.alike, h.unmatched hmatch.reference, h.unmatched_comparison hm hm' hmatch.comparison⟩

theorem ChildrenPaired.of_extends (h : m'.Extends m) (hpaired : ChildrenPaired p m r c) :
    ChildrenPaired p m' r c where
  reference x hx := by
    obtain ⟨y, hy, hxy⟩ := hpaired.reference x hx
    exact ⟨y, hy, h x _ hxy⟩
  comparison y hy := by
    obtain ⟨x, hx, hxy⟩ := hpaired.comparison y hy
    exact ⟨x, hx, h x _ hxy⟩

/-- A mapping becomes another one by pairing the nodes of two lists with each other. -/
structure Pairs (p : Problem) (m m' : Mapping) (xs ys : List Nat) : Prop where
  exact : Exact p m'
  into : ∀ x ∈ xs, ∃ y ∈ ys, m'.comparisonFor? x = some y
  onto : ∀ y ∈ ys, ∃ x ∈ xs, m'.comparisonFor? x = some y
  reference : ∀ n, n ∉ xs → m'.correspondence? n = m.correspondence? n
  comparison : ∀ n, n ∉ ys → m'.referenceFor? n = m.referenceFor? n

namespace Pairs

theorem comparisonFor? (h : Pairs p m m' xs ys) (hx : x ∉ xs) :
    m'.comparisonFor? x = m.comparisonFor? x := by
  rw [Mapping.comparisonFor?, h.reference x hx]
  rfl

theorem extension (h : Pairs p m m' xs ys) (hxs : ∀ x ∈ xs, m.comparisonFor? x = none) :
    m'.Extends m := by
  intro n found hn
  by_cases hmem : n ∈ xs
  · have hnone := Mapping.comparisonFor?_eq_none_iff.1 (hxs n hmem)
    rw [hnone] at hn
    simp at hn
  · rw [h.reference n hmem, hn]

end Pairs

section Propagation

variable (hp : p.Sound)

include hp

theorem pairChild_eq (hs : Exact p s.mapping) (hx : x < p.reference.size)
    (hfree : s.mapping.comparisonFor? x = none)
    (hys : ∀ y ∈ ys, y < p.comparison.size ∧ s.mapping.referenceFor? y = none)
    (hpartner : ∃ y ∈ ys, p.Alike x y) :
    ∃ y ∈ ys, p.Alike x y ∧ ∃ s', s.pair? p x y .exact = some s' ∧
      pairChild p (s, ys) x = (s', ys.erase y) := by
  obtain ⟨z, hz, hxz⟩ := hpartner
  have hmem : z ∈ ys.filter (p.signaturesAgree x) :=
    List.mem_filter.2 ⟨hz, hxz.signaturesAgree⟩
  cases hcandidates : ys.filter (p.signaturesAgree x) with
  | nil =>
    rw [hcandidates] at hmem
    simp at hmem
  | cons y rest =>
    have hy : y ∈ ys.filter (p.signaturesAgree x) := by
      rw [hcandidates]
      exact List.mem_cons_self
    obtain ⟨hys', hagree⟩ := List.mem_filter.1 hy
    have halike := hp.alike_of_signaturesAgree hx hagree
    obtain ⟨s', hs'⟩ := hs.exists_pair? hp ⟨halike, hfree, (hys y hys').2⟩
    refine ⟨y, hys', halike, s', hs', ?_⟩
    unfold pairChild
    dsimp only
    rw [ask_reference hp.toOwn (by simpa using hx),
      ask_comparison hp.toOwn fun n hn => (hys n hn).1,
      Mapping.hasReference_eq_false_iff.2 hfree, hcandidates, List.findSome?_cons, hs']
    rfl

/-- Free nodes with the same signatures on either side are all paired, in one go. -/
theorem foldl_pairChild (hs : Exact p s.mapping)
    (hperm : (xs.map p.referenceTable.get?).Perm (ys.map p.comparisonTable.get?))
    (hxnodup : xs.Nodup) (hynodup : ys.Nodup)
    (hxs : ∀ x ∈ xs, x < p.reference.size ∧ s.mapping.comparisonFor? x = none)
    (hys : ∀ y ∈ ys, y < p.comparison.size ∧ s.mapping.referenceFor? y = none) :
    Pairs p s.mapping (xs.foldl (pairChild p) (s, ys)).1.mapping xs ys ∧
      (xs.foldl (pairChild p) (s, ys)).1.pending = s.pending ++ xs := by
  induction xs generalizing s ys with
  | nil =>
    rw [List.map_nil, List.nil_perm, List.map_eq_nil_iff] at hperm
    rw [hperm]
    refine ⟨⟨hs, ?_, ?_, fun _ _ => rfl, fun _ _ => rfl⟩, (List.append_nil _).symm⟩ <;> simp
  | cons x xs ih =>
    obtain ⟨hx, hxfree⟩ := hxs x List.mem_cons_self
    have hpartner : ∃ y ∈ ys, p.Alike x y := by
      obtain ⟨y, hy, heq⟩ := List.mem_map.1 (hperm.subset List.mem_cons_self)
      exact ⟨y, hy, hp.alike_of_get?_eq hx heq.symm⟩
    obtain ⟨y, hy, halike, s', hpair, hchild⟩ := pairChild_eq hp hs hx hxfree hys hpartner
    obtain ⟨-, hinsert, hpending, -⟩ := State.pair?_eq_some hpair
    obtain ⟨hxxs, hxnodup⟩ := List.nodup_cons.1 hxnodup
    have hrest : (xs.map p.referenceTable.get?).Perm
        ((ys.erase y).map p.comparisonTable.get?) := by
      have herase := (List.perm_cons_erase hy).map p.comparisonTable.get?
      rw [List.map_cons, ← halike.get?_eq] at herase
      exact (hperm.trans herase).cons_inv
    have hmem : ∀ n, n ∈ ys.erase y ↔ n ≠ y ∧ n ∈ ys := fun n => hynodup.mem_erase_iff
    obtain ⟨hpairs, hqueue⟩ := ih (hs.of_pair? halike hpair) hrest hxnodup (hynodup.erase y)
      (by
        intro n hn
        rw [Mapping.comparisonFor?_insert? hinsert, if_neg (by rintro rfl; exact hxxs hn)]
        exact hxs n (List.mem_cons_of_mem x hn))
      (by
        intro n hn
        obtain ⟨hny, hn⟩ := (hmem n).1 hn
        rw [Mapping.referenceFor?_insert? hinsert, if_neg hny]
        exact hys n hn)
    rw [List.foldl_cons, hchild]
    generalize xs.foldl (pairChild p) (s', ys.erase y) = result at hpairs hqueue
    have hxy : result.1.mapping.comparisonFor? x = some y := by
      rw [hpairs.comparisonFor? hxxs, Mapping.comparisonFor?_insert? hinsert, if_pos rfl]
    refine ⟨⟨hpairs.exact, ?_, ?_, ?_, ?_⟩, by rw [hqueue, hpending, List.append_assoc]; rfl⟩
    · intro n hn
      rcases List.mem_cons.1 hn with rfl | hn
      · exact ⟨y, hy, hxy⟩
      · obtain ⟨z, hz, hnz⟩ := hpairs.into n hn
        exact ⟨z, ((hmem z).1 hz).2, hnz⟩
    · intro n hn
      by_cases hny : n = y
      · exact ⟨x, List.mem_cons_self, hny ▸ hxy⟩
      · obtain ⟨z, hz, hzn⟩ := hpairs.onto n ((hmem n).2 ⟨hny, hn⟩)
        exact ⟨z, List.mem_cons_of_mem x hz, hzn⟩
    · intro n hn
      rw [List.mem_cons, not_or] at hn
      rw [hpairs.reference n hn.2, Mapping.correspondence?_insert? hinsert, if_neg hn.1]
    · intro n hn
      have hny : n ≠ y := by
        rintro rfl
        exact hn hy
      rw [hpairs.comparison n (fun h => hn ((hmem n).1 h).2),
        Mapping.referenceFor?_insert? hinsert, if_neg hny]

end Propagation

/-- What holds of every state while exact pairs are made. -/
structure Orderly (p : Problem) (s : State) : Prop where
  exact : Exact p s.mapping
  below : ∀ r c, Matchable p s.mapping r c → ChildrenFree p s.mapping r c
  carried : ∀ r c, s.mapping.comparisonFor? r = some c →
    ChildrenPaired p s.mapping r c ∨ (r ∈ s.pending ∧ ChildrenFree p s.mapping r c)

theorem orderly_initial (p : Problem) : Orderly p (.initial p) where
  exact := .empty p
  below r c _ := ⟨fun _ _ => Mapping.comparisonFor?_empty _ _, fun _ _ =>
    Mapping.referenceFor?_empty _ _⟩
  carried r c h := by
    change (Mapping.empty p.reference.size p.comparison.size).comparisonFor? r = some c at h
    rw [Mapping.comparisonFor?_empty] at h
    simp at h

/-- The invariant only reads the mapping and what is pending. -/
theorem Orderly.congr (hs : Orderly p s) (hmapping : s'.mapping = s.mapping)
    (hpending : s'.pending = s.pending) : Orderly p s' := by
  obtain ⟨hexact, hbelow, hcarried⟩ := hs
  rw [← hmapping] at hexact hbelow hcarried
  rw [← hpending] at hcarried
  exact ⟨hexact, hbelow, hcarried⟩

/-- Pairing the children of one pair leaves the children of other nodes free. -/
theorem ChildrenFree.of_pairs {a b : Nat} (hfree : ChildrenFree p m a b)
    (hpairs : Pairs p m m' (ascending (p.reference.children r))
      (ascending (p.comparison.children c))) (ha : a ≠ r) (hb : b ≠ c) :
    ChildrenFree p m' a b where
  reference x hx := by
    rw [hpairs.comparisonFor? fun h => ha (parent_unique hx (mem_ascending.1 h))]
    exact hfree.reference x hx
  comparison y hy := by
    rw [hpairs.comparison y fun h => hb (parent_unique hy (mem_ascending.1 h))]
    exact hfree.comparison y hy

/-- A pair whose comparison children are all matched has nothing to hand down. -/
theorem pairChildren_of_taken
    (h : ∀ y ∈ p.comparison.children c, s.mapping.hasComparison y = true) :
    pairChildren p s r c = s := by
  have hnone : (p.comparison.children c).filter
      (fun child => !s.mapping.hasComparison child) = [] := by
    rw [List.filter_eq_nil_iff]
    intro y hy
    simp [h y hy]
  unfold pairChildren
  rw [hnone]
  rfl

theorem pairChildren_of_paired (hm : s.mapping.Valid p.reference.size p.comparison.size)
    (h : ChildrenPaired p s.mapping r c) : pairChildren p s r c = s := by
  apply pairChildren_of_taken
  intro y hy
  obtain ⟨x, -, hx⟩ := h.comparison y hy
  have hmatched := (hm.agree x y).1 (Mapping.comparisonFor?_eq_some_iff.2 ⟨_, hx⟩)
  exact Mapping.hasComparison_iff.2 ⟨x, hmatched⟩

/-- A parent that is checked has a matched child. If the children of alike unmatched nodes are
free, it has no free alike node, so there is nothing to put up. -/
theorem parentTrials_eq_nil (hp : p.Own)
    (hbelow : ∀ r c, Matchable p s.mapping r c → ChildrenFree p s.mapping r c) :
    parentTrials p s r = [] := by
  rw [List.eq_nil_iff_forall_not_mem]
  intro t ht
  obtain ⟨c, -, hcommon, hr, hc, hagree⟩ := mem_parentTrials ht
  obtain ⟨x, hx, y, -, hxy⟩ := commonParent?_eq_some hcommon
  have hsize := (lt_size_of_mem_children hx).2
  have hmatch : Matchable p s.mapping r c :=
    ⟨hp.alike_of_signaturesAgree hsize hagree, hr, hc⟩
  rw [(hbelow r c hmatch).reference x hx] at hxy
  cases hxy

theorem checkParent_eq (hp : p.Own)
    (hbelow : ∀ r c, Matchable p s.mapping r c → ChildrenFree p s.mapping r c) :
    checkParent p s r = s :=
  checkParent_of_no_trial hp (parentTrials_eq_nil hp hbelow)

section Steps

variable (hp : p.Sound)

include hp

theorem pairs_pairChildren (hs : Exact p s.mapping) (halike : p.Alike r c)
    (hfree : ChildrenFree p s.mapping r c) :
    Pairs p s.mapping (pairChildren p s r c).mapping (ascending (p.reference.children r))
        (ascending (p.comparison.children c)) ∧
      (pairChildren p s r c).pending = s.pending ++ ascending (p.reference.children r) := by
  have hall : (p.comparison.children c).filter (fun child => !s.mapping.hasComparison child) =
      p.comparison.children c := by
    rw [List.filter_eq_self]
    intro y hy
    rw [Mapping.hasComparison_eq_false_iff.2 (hfree.comparison y hy)]
    rfl
  have hperm : ((ascending (p.reference.children r)).map p.referenceTable.get?).Perm
      ((ascending (p.comparison.children c)).map p.comparisonTable.get?) :=
    ((ascending_perm _).map _).trans
      ((hp.children_perm halike).trans ((ascending_perm _).map _).symm)
  have hfold : pairChildren p s r c = ((ascending (p.reference.children r)).foldl (pairChild p)
      (s, ascending (p.comparison.children c))).1 := by
    unfold pairChildren
    rw [hall]
    dsimp only
    split
    · rename_i hempty
      rw [List.isEmpty_iff.1 hempty, List.map_nil, List.perm_nil, List.map_eq_nil_iff] at hperm
      rw [hperm]
      rfl
    · rfl
  rw [hfold]
  refine foldl_pairChild hp hs hperm ((ascending_perm _).nodup_iff.2 (children_nodup _ _))
    ((ascending_perm _).nodup_iff.2 (children_nodup _ _)) (fun x hx => ?_) (fun y hy => ?_)
  · rw [mem_ascending] at hx
    exact ⟨(lt_size_of_mem_children hx).1, hfree.reference x hx⟩
  · rw [mem_ascending] at hy
    exact ⟨(lt_size_of_mem_children hy).1, hfree.comparison y hy⟩

/-- Taking a pair out of the queue and pairing its children keeps the invariant. -/
theorem orderly_pairChildren {rest : List Nat} (hs : Orderly p s) (hpending : s.pending = r :: rest)
    (hr : s.mapping.comparisonFor? r = some c) :
    Orderly p (pairChildren p { s with pending := rest } r c) := by
  obtain ⟨hexact, hbelow, hcarried⟩ := hs
  have hqueue : ∀ a, a ∈ s.pending → a ≠ r → a ∈ rest := by
    intro a ha hne
    rw [hpending] at ha
    exact (List.mem_cons.1 ha).resolve_left hne
  rcases hcarried r c hr with hpaired | ⟨-, hfree⟩
  · rw [pairChildren_of_paired (s := { s with pending := rest }) hexact.valid hpaired]
    refine ⟨hexact, hbelow, fun a b hab => ?_⟩
    by_cases ha : a = r
    · rw [ha, hr] at hab
      rw [ha, ← Option.some.inj hab]
      exact .inl hpaired
    · exact (hcarried a b hab).imp_right fun h => ⟨hqueue a h.1 ha, h.2⟩
  · obtain ⟨hpairs, hnew⟩ := pairs_pairChildren hp (s := { s with pending := rest }) hexact
      (hexact.alike hr) hfree
    generalize pairChildren p { s with pending := rest } r c = t at hpairs hnew
    dsimp only at hpairs hnew
    have hextends : t.mapping.Extends s.mapping :=
      hpairs.extension fun x hx => hfree.reference x (mem_ascending.1 hx)
    have hc := (hexact.valid.agree r c).1 hr
    refine ⟨hpairs.exact, fun a b hab => ?_, fun a b hab => ?_⟩
    · have hold := hab.of_extends hexact.valid hpairs.exact.valid hextends
      refine (hbelow a b hold).of_pairs hpairs ?_ ?_
      · rintro rfl
        rw [hold.reference] at hr
        simp at hr
      · rintro rfl
        rw [hold.comparison] at hc
        simp at hc
    · by_cases ha : a ∈ ascending (p.reference.children r)
      · -- a new pair: both nodes were unmatched, so their children still are
        obtain ⟨z, hz, haz⟩ := hpairs.into a ha
        obtain rfl : b = z := Option.some.inj (hab.symm.trans haz)
        rw [mem_ascending] at hz
        have hchild := mem_ascending.1 ha
        have hold : Matchable p s.mapping a b :=
          ⟨hpairs.exact.alike hab, hfree.reference a hchild, hfree.comparison b hz⟩
        refine .inr ⟨?_, (hbelow a b hold).of_pairs hpairs ?_ ?_⟩
        · rw [hnew]
          exact List.mem_append_right rest ha
        · rintro rfl
          exact notMem_children_self _ _ hchild
        · rintro rfl
          exact notMem_children_self _ _ hz
      · rw [hpairs.comparisonFor? ha] at hab
        rcases hcarried a b hab with hpaired | ⟨hwaiting, hchildren⟩
        · exact .inl (hpaired.of_extends hextends)
        · by_cases har : a = r
          · rw [har, hr] at hab
            rw [har, ← Option.some.inj hab]
            refine .inl ⟨fun x hx => ?_, fun y hy => ?_⟩
            · obtain ⟨y, hy, hxy⟩ := hpairs.into x (mem_ascending.2 hx)
              exact ⟨y, mem_ascending.1 hy, hpairs.exact.correspondence? hxy⟩
            · obtain ⟨x, hx, hxy⟩ := hpairs.onto y (mem_ascending.2 hy)
              exact ⟨x, mem_ascending.1 hx, hpairs.exact.correspondence? hxy⟩
          · refine .inr ⟨?_, hchildren.of_pairs hpairs har ?_⟩
            · rw [hnew]
              exact List.mem_append_left _ (hqueue a hwaiting har)
            · rintro rfl
              exact har (hexact.valid.injective hab hr)

theorem orderly_step? (hs : Orderly p s) (h : step? p s = some s') : Orderly p s' := by
  rcases step?_cases h with ⟨r, rest, hpending, hnone, rfl⟩ | ⟨r, c, rest, hpending, hr, rfl⟩ |
    ⟨parent, rest, -, -, rfl⟩
  · obtain ⟨hexact, hbelow, hcarried⟩ := hs
    refine ⟨hexact, hbelow, fun a b hab => (hcarried a b hab).imp_right fun hwaiting => ?_⟩
    refine ⟨(List.mem_cons.1 (hpending ▸ hwaiting.1)).resolve_left ?_, hwaiting.2⟩
    rintro rfl
    rw [hnone] at hab
    cases hab
  · exact orderly_pairChildren hp hs hpending hr
  · rw [checkParent_eq (s := { s with worklist := rest }) hp.toOwn hs.below]
    exact hs.congr rfl rfl

end Steps

/-- An orderly state in which nothing is pending. -/
structure Settled (p : Problem) (s : State) : Prop extends Orderly p s where
  pending : s.pending = []

theorem settled_settle (hp : p.Sound) (hs : Orderly p s) : Settled p (settle p s) := by
  obtain ⟨horderly, hpending⟩ := settle_induction (fun _ _ h => orderly_step? hp h) hs
  exact ⟨horderly, hpending⟩

namespace Settled

theorem initial (p : Problem) : Settled p (.initial p) :=
  ⟨orderly_initial p, rfl⟩

theorem congr (hs : Settled p s) (hmapping : s'.mapping = s.mapping)
    (hpending : s'.pending = s.pending) : Settled p s' :=
  ⟨hs.toOrderly.congr hmapping hpending, hpending.trans hs.pending⟩

theorem childrenPaired (hs : Settled p s) (h : s.mapping.comparisonFor? r = some c) :
    ChildrenPaired p s.mapping r c := by
  refine (hs.carried r c h).resolve_right fun hwaiting => ?_
  rw [hs.pending] at hwaiting
  simp at hwaiting

/-- A new pair keeps the invariant if its nodes are not children of alike unmatched nodes. -/
theorem of_pair? (hs : Settled p s) (halike : p.Alike r c)
    (hr : ∀ a, r ∈ p.reference.children a → ∀ b, ¬ Matchable p s.mapping a b)
    (hc : ∀ b, c ∈ p.comparison.children b → ∀ a, ¬ Matchable p s.mapping a b)
    (h : s.pair? p r c .exact = some s') : Orderly p s' := by
  have hexact := hs.exact.of_pair? halike h
  obtain ⟨-, hinsert, hpending, -⟩ := State.pair?_eq_some h
  obtain ⟨hrfree, hcfree⟩ := Mapping.insert?_free hinsert
  have hextends := Mapping.Extends.of_insert? hinsert
  have hfree : ∀ a b, ChildrenFree p s.mapping a b → r ∉ p.reference.children a →
      c ∉ p.comparison.children b → ChildrenFree p s'.mapping a b := by
    intro a b hab hra hcb
    refine ⟨fun x hx => ?_, fun y hy => ?_⟩
    · rw [Mapping.comparisonFor?_insert? hinsert, if_neg (by rintro rfl; exact hra hx)]
      exact hab.reference x hx
    · rw [Mapping.referenceFor?_insert? hinsert, if_neg (by rintro rfl; exact hcb hy)]
      exact hab.comparison y hy
  refine ⟨hexact, fun a b hab => ?_, fun a b hab => ?_⟩
  · have hold := hab.of_extends hs.exact.valid hexact.valid hextends
    exact hfree a b (hs.below a b hold) (fun hra => hr a hra b hold) fun hcb => hc b hcb a hold
  · rw [Mapping.comparisonFor?_insert? hinsert] at hab
    split at hab
    · rename_i har
      obtain rfl := Option.some.inj hab
      subst har
      refine .inr ⟨by rw [hpending]; simp, hfree _ _ (hs.below _ _ ⟨halike, hrfree, hcfree⟩) ?_ ?_⟩
      · exact notMem_children_self _ _
      · exact notMem_children_self _ _
    · exact .inl ((hs.childrenPaired hab).of_extends hextends)

end Settled
end Concordance.Matching
