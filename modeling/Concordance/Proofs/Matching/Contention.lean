import Concordance.Proofs.Matching.Completion
import Concordance.Proofs.Matching.Twins
import Mathlib.Data.List.Find

/-!
# Contention for partners

The overlap pass is the one place where the stored order of children shows: it
visits the reference nodes in post-order, and of two nodes that contend for one
partner the first one gets it. Contenders have the same kind and the same depth.
Other nodes are only in each other's way as parent and child, and in post-order a
child always comes first. So any two orders of the visits end with the same pairs
as long as contenders come up in the same order.
-/
namespace Concordance

section Order

variable {α β : Type} {a b : α} {xs ys : List α}

/-- Of two elements one comes before the other. -/
theorem pair_sublist_or (ha : a ∈ xs) (hb : b ∈ xs) (hne : a ≠ b) :
    [a, b].Sublist xs ∨ [b, a].Sublist xs := by
  induction xs with
  | nil => simp at ha
  | cons x xs ih =>
    rcases List.mem_cons.1 ha with rfl | ha'
    · exact .inl ((List.singleton_sublist.2
        ((List.mem_cons.1 hb).resolve_left (Ne.symm hne))).cons_cons a)
    · rcases List.mem_cons.1 hb with rfl | hb'
      · exact .inr ((List.singleton_sublist.2 ha').cons_cons b)
      · exact (ih ha' hb').imp (.cons x) (.cons x)

/-- A step that commutes with all steps of a list can be taken before or after them. -/
theorem foldl_step_comm {f : β → α → β} {I : β → Prop} (hI : ∀ m z, I m → I (f m z))
    (hcomm : ∀ z ∈ xs, ∀ m, I m → f (f m z) a = f (f m a) z) {m : β} (hm : I m) :
    f (xs.foldl f m) a = xs.foldl f (f m a) := by
  induction xs generalizing m with
  | nil => rfl
  | cons x xs ih =>
    rw [List.foldl_cons, List.foldl_cons, ih (fun z hz => hcomm z (List.mem_cons_of_mem x hz))
      (hI m x hm), hcomm x List.mem_cons_self m hm]

/-- Two orders of steps end the same if steps that depend on each other come in the same order. -/
theorem foldl_eq_of_order {f : β → α → β} (I : β → Prop) (Dependent : α → α → Prop)
    (hI : ∀ m z, I m → I (f m z))
    (hcomm : ∀ a b, ¬ Dependent a b → ∀ m, I m → f (f m a) b = f (f m b) a)
    (hperm : ys.Perm xs) (hnodup : xs.Nodup)
    (horder : ∀ a b, Dependent a b → [a, b].Sublist ys → [a, b].Sublist xs) {m : β} (hm : I m) :
    ys.foldl f m = xs.foldl f m := by
  induction xs generalizing ys m with
  | nil => rw [List.perm_nil.1 hperm]
  | cons x xs ih =>
    obtain ⟨hx, hxs⟩ := List.nodup_cons.1 hnodup
    obtain ⟨before, after, rfl⟩ := List.append_of_mem (hperm.symm.subset List.mem_cons_self)
    have hrest : (before ++ after).Perm xs := (List.perm_middle.symm.trans hperm).cons_inv
    have hbefore : ∀ z ∈ before, ∀ m, I m → f (f m z) x = f (f m x) z := by
      intro z hz
      apply hcomm z x
      intro hdependent
      have hzx : [z, x].Sublist (before ++ x :: after) :=
        (List.singleton_sublist.2 hz).append (List.singleton_sublist.2 List.mem_cons_self)
      have hzxs : z ∈ xs := hrest.subset (List.mem_append_left after hz)
      cases horder z x hdependent hzx with
      | cons _ h => exact hx (h.subset (by simp))
      | cons_cons _ h => exact hx hzxs
    rw [List.foldl_append, List.foldl_cons, foldl_step_comm hI hbefore hm, ← List.foldl_append,
      List.foldl_cons]
    refine ih hrest hxs ?_ (hI m x hm)
    intro a b hdependent hab
    have hold := horder a b hdependent
      (hab.trans ((List.sublist_cons_self x after).append_left before))
    cases hold with
    | cons _ h => exact h
    | cons_cons _ h =>
      exact absurd (hrest.subset (hab.subset List.mem_cons_self)) hx

theorem eraseDups_perm {xs ys : List Nat} (h : xs.Perm ys) : xs.eraseDups.Perm ys.eraseDups := by
  rw [List.perm_ext_iff_of_nodup (nodup_eraseDups xs) (nodup_eraseDups ys)]
  intro z
  rw [List.mem_eraseDups, List.mem_eraseDups, h.mem_iff]

end Order

/-- Nodes of one kind and depth that have no exact partner, in the order of a post-order walk. -/
def Mapping.contenders (m : Mapping) (e : Expression) (kind : Kind) (depth : Nat) : List Nat :=
  e.postOrder.filter fun r =>
    e.kind? r = some kind ∧ e.depth r = depth ∧ m.quality? r ≠ some .exact

namespace Matching

open Expression

variable {p p' : Problem} {m m' start : Mapping} {s s' : State} {r c x y a b : Nat} {q : Quality}

/-- The partner of greatest overlap that is accepted for a node. -/
def overlapPartner? (p : Problem) (m : Mapping) (r : Nat) : Option Nat :=
  if m.hasReference r || !isInterior p r then none
  else ((rankedCandidates p m r).find? fun candidate => p.admits m r candidate.1).map Prod.fst

/-- Pairs a node with its partner of greatest overlap. -/
def overlapStep (p : Problem) (m : Mapping) (r : Nat) : Mapping :=
  ((overlapPartner? p m r).bind fun c => m.insert? r c .approximate).getD m

theorem overlapPartner?_eq_some (hp : p.Own) (h : overlapPartner? p m r = some c) :
    m.comparisonFor? r = none ∧ Candidate p m r c := by
  unfold overlapPartner? at h
  split at h
  · simp at h
  · rename_i hopen
    rw [Bool.or_eq_true, not_or, Bool.not_eq_true, Mapping.hasReference_eq_false_iff] at hopen
    obtain ⟨candidate, hfound, rfl⟩ := Option.map_eq_some_iff.1 h
    exact ⟨hopen.1, candidate_of_mem_overlaps hp
      (mem_rankedCandidates (List.mem_of_find?_eq_some hfound))⟩

theorem overlapStep_of_none (h : overlapPartner? p m r = none) : overlapStep p m r = m := by
  rw [overlapStep, h]
  rfl

theorem overlapStep_of_some (h : overlapPartner? p m r = some c)
    (hinsert : m.insert? r c .approximate = some m') : overlapStep p m r = m' := by
  rw [overlapStep, h, Option.bind_some, hinsert]
  rfl

/-- A step leaves the mapping as it is or adds the pair of a node and its partner. -/
theorem overlapStep_cases (hp : p.Own) (hm : m.Valid p.reference.size p.comparison.size) (r : Nat) :
    (overlapPartner? p m r = none ∧ overlapStep p m r = m) ∨
      ∃ c, overlapPartner? p m r = some c ∧ Candidate p m r c ∧
        m.insert? r c .approximate = some (overlapStep p m r) := by
  cases h : overlapPartner? p m r with
  | none => exact .inl ⟨rfl, overlapStep_of_none h⟩
  | some c =>
    obtain ⟨hr, hcandidate⟩ := overlapPartner?_eq_some hp h
    obtain ⟨m', hinsert⟩ := hm.exists_insert? hcandidate.reference hcandidate.comparison hr
      hcandidate.unmatched .approximate
    exact .inr ⟨c, rfl, hcandidate, by rw [overlapStep_of_some h hinsert, hinsert]⟩

/-- Of the elements that pass a test the first one gives the first result. -/
theorem findSome?_eq_bind_find? {α β : Type} {f : α → Option β} {test : α → Bool} {xs : List α}
    (h : ∀ x ∈ xs, (f x).isSome = test x) : xs.findSome? f = (xs.find? test).bind f := by
  induction xs with
  | nil => rfl
  | cons x xs ih =>
    have hx := h x List.mem_cons_self
    rw [List.findSome?_cons, List.find?_cons, ← hx]
    cases hf : f x with
    | none => exact ih fun z hz => h z (List.mem_cons_of_mem x hz)
    | some b => exact hf.symm

theorem mapping_pairByOverlap (hp : p.Own) (hs : Finishing p start s.mapping) :
    (pairByOverlap p s r).mapping = overlapStep p s.mapping r := by
  unfold pairByOverlap overlapStep overlapPartner?
  split
  · rfl
  · rename_i hopen
    rw [Bool.or_eq_true, not_or, Bool.not_eq_true, Mapping.hasReference_eq_false_iff] at hopen
    dsimp only
    have hpair : ∀ candidate ∈ rankedCandidates p s.mapping r,
        ((s.pair? p r candidate.1 .approximate).map (·, candidate)).isSome =
          p.admits s.mapping r candidate.1 := by
      intro candidate hmem
      have hcandidate := candidate_of_mem_overlaps hp (mem_rankedCandidates hmem)
      obtain ⟨m', hinsert⟩ := hs.fair.valid.exists_insert? hcandidate.reference
        hcandidate.comparison hopen.1 hcandidate.unmatched .approximate
      unfold State.pair?
      split <;> simp [*]
    rw [findSome?_eq_bind_find? hpair]
    cases hfound : (rankedCandidates p s.mapping r).find?
        fun candidate => p.admits s.mapping r candidate.1 with
    | none => rfl
    | some candidate =>
      rw [Option.bind_some, Option.map_some, Option.bind_some]
      cases haccept : s.pair? p r candidate.1 .approximate with
      | none =>
        have hsome := hpair candidate (List.mem_of_find?_eq_some hfound)
        simp [haccept, List.find?_some hfound] at hsome
      | some t =>
        obtain ⟨-, hinsert, -, -⟩ := State.pair?_eq_some haccept
        rw [hinsert]
        dsimp only [Option.map_some]
        rw [mapping_settle_of_spent (s := t.note _) hp (hs.pair? haccept).spent]
        rfl

theorem mapping_overlapPass (hp : p.Own) (hs : Finishing p start s.mapping) :
    (overlapPass p s).mapping = p.reference.postOrder.foldl (overlapStep p) s.mapping := by
  have hrel := List.foldl_rel (l := p.reference.postOrder) (f := pairByOverlap p)
    (g := overlapStep p) (a := s) (b := s.mapping)
    (r := fun t m => t.mapping = m ∧ Finishing p start t.mapping) ⟨rfl, hs⟩ ?_
  · exact hrel.1
  · rintro r - t m ⟨rfl, ht⟩
    exact ⟨mapping_pairByOverlap hp ht, ht.pairByOverlap hp⟩

namespace Twins

variable (hp : Twins p p')

include hp

theorem overlaps (m : Mapping) (r : Nat) : (overlaps p' m r).Perm (overlaps p m r) := by
  have hoffer : ∀ child ∈ p'.reference.children r, offer? p' m r child = offer? p m r child := by
    intro child hchild
    have hr' := (lt_size_of_mem_children hchild).2
    have hr : r < p.reference.size := hp.reference.size ▸ hr'
    unfold offer?
    rw [funext hp.comparison.parent?]
    cases hoffered : (m.comparisonFor? child).bind p.comparison.parent? with
    | none => rfl
    | some candidate =>
      have hc := lt_size_of_offered hoffered
      have hc' : candidate < p'.comparison.size := hp.comparison.size ▸ hc
      rw [Option.filter_some, Option.filter_some, hp.kindsAgree, hp.guarded.referenceLayout,
        hp.guarded'.referenceLayout, hp.guarded.comparisonLayout, hp.guarded'.comparisonLayout,
        Layout.depth_eq hr, Layout.depth_eq hr', Layout.depth_eq hc, Layout.depth_eq hc',
        hp.reference.depth, hp.comparison.depth]
  rw [overlaps_eq, overlaps_eq, List.filterMap_congr hoffer]
  exact (hp.reference.children r).filterMap _

theorem rankedCandidates (hconfig : p'.config = p.config) (m : Mapping) (r : Nat) :
    rankedCandidates p' m r = rankedCandidates p m r := by
  have hperm := hp.overlaps m r
  have hcount : (fun c => (c, (Matching.overlaps p' m r).count c)) =
      fun c => (c, (Matching.overlaps p m r).count c) :=
    funext fun c => congrArg (c, ·) (hperm.count_eq c)
  unfold Matching.rankedCandidates
  dsimp only
  rw [hconfig, hcount]
  apply sortBy_eq_of_perm
  · intro a b
    simp only [Bool.or_eq_true, Bool.and_eq_true, decide_eq_true_eq, beq_iff_eq]
    omega
  · intro a b c
    simp only [Bool.or_eq_true, Bool.and_eq_true, decide_eq_true_eq, beq_iff_eq]
    omega
  · intro a b hab hba
    simp only [Bool.or_eq_true, Bool.and_eq_true, decide_eq_true_eq, beq_iff_eq] at hab hba
    exact Prod.ext (by omega) (by omega)
  · exact ((eraseDups_perm hperm).map _).filter _

theorem overlapStep (hconfig : p'.config = p.config)
    (hm : m.Valid p.reference.size p.comparison.size) (r : Nat) :
    overlapStep p' m r = overlapStep p m r := by
  have hinterior : isInterior p' r = isInterior p r := by
    rw [isInterior, isInterior, hp.reference.kind?]
  have hfound : (Matching.rankedCandidates p m r).find? (fun candidate => p'.admits m r candidate.1)
      = (Matching.rankedCandidates p m r).find? fun candidate => p.admits m r candidate.1 := by
    apply List.find?_congr
    intro candidate hmem
    have hcandidate := candidate_of_mem_overlaps hp.guarded.toOwn (mem_rankedCandidates hmem)
    exact hp.admits hm hcandidate.reference hcandidate.comparison
  rw [Matching.overlapStep, Matching.overlapStep, overlapPartner?, overlapPartner?, hinterior,
    hp.rankedCandidates hconfig, hfound]

end Twins

theorem not_crosses_of_level (hr : r < p.reference.size) (hx : x < p.reference.size)
    (hc : c < p.comparison.size) (hy : y < p.comparison.size)
    (hrc : p.reference.depth r = p.comparison.depth c)
    (hxy : p.reference.depth x = p.comparison.depth y) : ¬ p.Crosses x y r c := by
  rintro (⟨hxr, hcy⟩ | ⟨hrx, hyc⟩)
  · have hdeeper := depth_lt_of_isAncestor hr hxr
    have hhigher := depth_lt_of_isAncestor hy hcy
    omega
  · have hdeeper := depth_lt_of_isAncestor hx hrx
    have hhigher := depth_lt_of_isAncestor hc hyc
    omega

/-- Two nodes have the same kind and depth. -/
def Peers (p : Problem) (a b : Nat) : Prop :=
  p.reference.kind? a = p.reference.kind? b ∧ p.reference.depth a = p.reference.depth b

/-- A pair leaves other nodes their overlaps, unless it is the pair of a child or takes a partner
that the node could have. -/
theorem overlaps_insert? (hp : p.Guarded) (hxy : Candidate p m x y)
    (hinsert : m.insert? x y q = some m') (hchild : x ∉ p.reference.children r)
    (hpeers : ¬ Peers p x r) : overlaps p m' r = overlaps p m r := by
  rw [overlaps_eq, overlaps_eq]
  apply List.filterMap_congr
  intro child hmem
  have hother : child ≠ x := fun h => hchild (h ▸ hmem)
  rw [offer?, offer?, Mapping.comparisonFor?_insert? hinsert, if_neg hother]
  cases (m.comparisonFor? child).bind p.comparison.parent? with
  | none => rfl
  | some candidate =>
    rw [Option.filter_some, Option.filter_some]
    by_cases hy : candidate = y
    · have hwrong : (p.kindsAgree r candidate &&
          p.comparisonLayout.depth candidate == p.referenceLayout.depth r) = false := by
        rw [Bool.and_eq_false_iff, ← Bool.not_eq_true, ← Bool.not_eq_true, ← not_and_or]
        rintro ⟨hkind, hdepth⟩
        rw [Problem.kindsAgree, beq_iff_eq, hy, ← hxy.kind] at hkind
        rw [beq_iff_eq, hp.comparisonLayout, hp.referenceLayout, hy,
          Layout.depth_eq hxy.comparison, Layout.depth_eq (lt_size_of_mem_children hmem).2,
          ← hxy.depth] at hdepth
        exact hpeers ⟨hkind.symm, hdepth⟩
      rw [Bool.and_assoc, Bool.and_assoc, hwrong, Bool.and_false, Bool.and_false]
    · have hfree : m'.hasComparison candidate = m.hasComparison candidate := by
        rw [Mapping.hasComparison, Mapping.hasComparison, Mapping.referenceFor?_insert? hinsert,
          if_neg hy]
      rw [hfree]

/-- So it leaves them their partners as well: candidates are level with their nodes, so that none of
them crosses the pair. -/
theorem overlapPartner?_insert? (hp : p.Guarded) (hm : m.Valid p.reference.size p.comparison.size)
    (hxy : Candidate p m x y) (hinsert : m.insert? x y q = some m') (hne : r ≠ x)
    (hchild : x ∉ p.reference.children r) (hpeers : ¬ Peers p x r) :
    overlapPartner? p m' r = overlapPartner? p m r := by
  have hranked : rankedCandidates p m' r = rankedCandidates p m r := by
    rw [rankedCandidates, rankedCandidates, overlaps_insert? hp hxy hinsert hchild hpeers]
  have hopen : m'.hasReference r = m.hasReference r := by
    rw [Mapping.hasReference, Mapping.hasReference, Mapping.correspondence?_insert? hinsert,
      if_neg hne]
  have hfound : (rankedCandidates p m r).find? (fun candidate => p.admits m' r candidate.1) =
      (rankedCandidates p m r).find? fun candidate => p.admits m r candidate.1 := by
    apply List.find?_congr
    intro candidate hmem
    have hcandidate := candidate_of_mem_overlaps hp.toOwn (mem_rankedCandidates hmem)
    have hlevel := not_crosses_of_level hcandidate.reference hxy.reference hcandidate.comparison
      hxy.comparison hcandidate.depth hxy.depth
    rw [Bool.eq_iff_iff,
      hp.admits_insert?_iff hm hcandidate.reference hcandidate.comparison hinsert]
    exact and_iff_left hlevel
  rw [overlapPartner?, overlapPartner?, hopen, hranked, hfound]

/-- A node that the overlap pass may pair. -/
def Open (p : Problem) (start : Mapping) (r : Nat) : Prop :=
  start.comparisonFor? r = none ∧ isInterior p r = true

/-- The order of the steps of two nodes matters. -/
def Dependent (p : Problem) (start : Mapping) (a b : Nat) : Prop :=
  a ≠ b ∧ Open p start a ∧ Open p start b ∧
    (a ∈ p.reference.children b ∨ b ∈ p.reference.children a ∨ Peers p a b)

theorem overlapStep_of_not_open (h : ¬ Open p start r) (hm : m.Extends start) :
    overlapStep p m r = m := by
  apply overlapStep_of_none
  unfold overlapPartner?
  split
  · rfl
  · rename_i hopen
    rw [Bool.or_eq_true, not_or, Bool.not_eq_true, Mapping.hasReference_eq_false_iff] at hopen
    exact absurd ⟨hm.unmatched hopen.1, by simpa using hopen.2⟩ h

/-- What the steps of the overlap pass keep. -/
structure Ongoing (p : Problem) (start m : Mapping) : Prop where
  valid : m.Valid p.reference.size p.comparison.size
  extension : m.Extends start

theorem Ongoing.overlapStep (hp : p.Own) (hm : Ongoing p start m) (r : Nat) :
    Ongoing p start (overlapStep p m r) := by
  rcases overlapStep_cases hp hm.valid r with ⟨-, hnone⟩ | ⟨c, -, -, hinsert⟩
  · rwa [hnone]
  · exact ⟨hm.valid.insert hinsert, (Mapping.Extends.of_insert? hinsert).trans hm.extension⟩

/-- The steps of two nodes can be taken in either order unless one node is the parent of the other
or both have the same kind and depth. -/
theorem overlapStep_comm (hp : p.Guarded) (hm : Ongoing p start m) (h : ¬ Dependent p start a b) :
    overlapStep p (overlapStep p m a) b = overlapStep p (overlapStep p m b) a := by
  by_cases hne : a = b
  · rw [hne]
  by_cases ha : Open p start a
  case neg =>
    rw [overlapStep_of_not_open ha hm.extension,
      overlapStep_of_not_open ha (hm.overlapStep hp.toOwn b).extension]
  by_cases hb : Open p start b
  case neg =>
    rw [overlapStep_of_not_open hb hm.extension,
      overlapStep_of_not_open hb (hm.overlapStep hp.toOwn a).extension]
  obtain ⟨hab, hba, hpeers⟩ : a ∉ p.reference.children b ∧ b ∉ p.reference.children a ∧
      ¬ Peers p a b := by
    refine ⟨fun hc => h ⟨hne, ha, hb, .inl hc⟩, fun hc => h ⟨hne, ha, hb, .inr (.inl hc)⟩,
      fun hc => h ⟨hne, ha, hb, .inr (.inr hc)⟩⟩
  have hpeers' : ¬ Peers p b a := fun hc => hpeers ⟨hc.1.symm, hc.2.symm⟩
  rcases overlapStep_cases hp.toOwn hm.valid a with ⟨hnone, hstay⟩ | ⟨c, hc, hac, hinsert⟩
  · rcases overlapStep_cases hp.toOwn hm.valid b with ⟨-, hstay'⟩ | ⟨d, -, hbd, hinsert'⟩
    · rw [hstay, hstay', hstay]
    · have hpartner := overlapPartner?_insert? hp hm.valid hbd hinsert' hne hba hpeers'
      rw [hstay, overlapStep_of_none (hpartner.trans hnone)]
  · have hpartner := overlapPartner?_insert? hp hm.valid hac hinsert (Ne.symm hne) hab hpeers
    rcases overlapStep_cases hp.toOwn hm.valid b with ⟨hnone, hstay'⟩ | ⟨d, hd, hbd, hinsert'⟩
    · rw [hstay', overlapStep_of_none (hpartner.trans hnone)]
    · have hpartner' := overlapPartner?_insert? hp hm.valid hbd hinsert' hne hba hpeers'
      have hcd : c ≠ d := by
        rintro rfl
        exact hpeers ⟨hac.kind.trans hbd.kind.symm, hac.depth.trans hbd.depth.symm⟩
      obtain ⟨both, hboth, hboth'⟩ := Mapping.insert?_comm hinsert hinsert' hne hcd
      rw [overlapStep_of_some (hpartner.trans hd) hboth,
        overlapStep_of_some (hpartner'.trans hc) hboth']

theorem isInterior_iff : isInterior p r = true ↔
    ∃ kind, p.reference.kind? r = some kind ∧ kind.isLeaf = false := by
  unfold isInterior
  cases p.reference.kind? r <;> simp

/-- Peers that the overlap pass may pair are contenders, so their order can be read off there. -/
theorem pair_sublist_contenders (hexact : ∀ r, start.comparisonFor? r = none →
      m.quality? r ≠ some .exact) {e : Expression} {kind : Kind} {depth : Nat}
    (ha : e.kind? a = some kind ∧ e.depth a = depth)
    (hb : e.kind? b = some kind ∧ e.depth b = depth)
    (hopen : start.comparisonFor? a = none) (hopen' : start.comparisonFor? b = none)
    (h : [a, b].Sublist e.postOrder) : [a, b].Sublist (m.contenders e kind depth) := by
  have hkept : [a, b].filter (fun r => e.kind? r = some kind ∧ e.depth r = depth ∧
      m.quality? r ≠ some .exact) = [a, b] := by
    rw [List.filter_eq_self]
    intro r hr
    rcases List.mem_pair.1 hr with rfl | rfl
    · exact decide_eq_true ⟨ha.1, ha.2, hexact _ hopen⟩
    · exact decide_eq_true ⟨hb.1, hb.2, hexact _ hopen'⟩
  rw [← hkept]
  exact h.filter _

section Order

variable (hp : Twins p p')
  (hexact : ∀ r, start.comparisonFor? r = none → m.quality? r ≠ some .exact)
  (hcontenders : ∀ kind depth, kind.isLeaf = false →
    m.contenders p'.reference kind depth = m.contenders p.reference kind depth)

include hp hexact hcontenders

/-- Steps that depend on each other come in the same order for twins: a child is always visited
before its parent, and peers are contenders. -/
theorem Twins.sublist_of_dependent (hab : Dependent p start a b)
    (h : [a, b].Sublist p'.reference.postOrder) : [a, b].Sublist p.reference.postOrder := by
  obtain ⟨hne, ⟨ha, hinner⟩, ⟨hb, -⟩, hrelated⟩ := hab
  rcases hrelated with hchild | hchild | ⟨hkind, hdepth⟩
  · have hperm := hp.reference.postOrder_perm
    have hmem := hperm.subset (h.subset (List.mem_cons_self : a ∈ [a, b]))
    have hmem' := hperm.subset (h.subset (List.mem_cons_of_mem a List.mem_cons_self))
    refine (pair_sublist_or hmem hmem' hne).resolve_right fun hba => ?_
    have hlate := p.reference.postOrder_pairwise.sublist hba
    exact List.pairwise_pair.1 hlate hchild
  · have hlate := p'.reference.postOrder_pairwise.sublist h
    exact absurd (hp.reference.mem_children.2 hchild) (List.pairwise_pair.1 hlate)
  · obtain ⟨kind, ha', hleaf⟩ := isInterior_iff.1 hinner
    have hpeer : p'.reference.kind? a = some kind ∧
        p'.reference.depth a = p.reference.depth a := by
      rw [hp.reference.kind?, hp.reference.depth]
      exact ⟨ha', rfl⟩
    have hpeer' : p'.reference.kind? b = some kind ∧
        p'.reference.depth b = p.reference.depth a := by
      rw [hp.reference.kind?, hp.reference.depth, ← hkind, ← hdepth]
      exact ⟨ha', rfl⟩
    have hranked := pair_sublist_contenders hexact hpeer hpeer' ha hb h
    rw [hcontenders kind _ hleaf] at hranked
    exact hranked.trans List.filter_sublist

/-- Twins end the overlap pass with the same pairs if contenders come up in the same order. -/
theorem Twins.foldl_overlapStep (hconfig : p'.config = p.config)
    (hstart : start.Valid p.reference.size p.comparison.size) :
    p'.reference.postOrder.foldl (Matching.overlapStep p') start =
      p.reference.postOrder.foldl (Matching.overlapStep p) start := by
  have hongoing : Ongoing p start start := ⟨hstart, .refl start⟩
  have hsteps := List.foldl_rel (l := p'.reference.postOrder) (f := Matching.overlapStep p')
    (g := Matching.overlapStep p) (a := start) (b := start)
    (r := fun m m' => m = m' ∧ Ongoing p start m') ⟨rfl, hongoing⟩ (by
      rintro r - m _ ⟨rfl, hm⟩
      exact ⟨hp.overlapStep hconfig hm.valid r, hm.overlapStep hp.guarded.toOwn r⟩)
  rw [hsteps.1]
  exact foldl_eq_of_order (Ongoing p start) (Dependent p start)
    (fun m r hm => hm.overlapStep hp.guarded.toOwn r)
    (fun a b hab m hm => overlapStep_comm hp.guarded hm hab) hp.reference.postOrder_perm
    p.reference.postOrder_nodup
    (fun a b hab => hp.sublist_of_dependent hexact hcontenders hab) hongoing

end Order

end Matching
end Concordance
