import Concordance.Proofs.Matching.Crossing
import Mathlib.Data.List.Perm.Subperm

/-!
# Raised pairs

When the children of two nodes of one signature are exact pairs with each other,
and as many on either side, the check of parents raises the pair to the nodes
themselves. The order in which parents are checked makes no difference: two pairs
that are ripe at the same time stay ripe beside each other, and every ripe node
waits for its check. So what the checks arrive at is determined by the mapping
they start from.
-/
namespace Concordance

/-- A strict ancestor has a child on the way down. -/
theorem Expression.exists_child_of_isAncestor {e : Expression} {a n : Nat} (hn : n < e.size)
    (h : e.isAncestor a n = true) : ∃ x ∈ e.children a, e.InSubtree x n := by
  induction n, hn using induction_down with
  | root => simp [not_isAncestor_root] at h
  | child p c hc ih =>
    rcases (isAncestor_of_mem_children hc).1 h with rfl | habove
    · exact ⟨c, hc, .inl rfl⟩
    · obtain ⟨x, hx, hxp⟩ := ih habove
      exact ⟨x, hx, .inr ((isAncestor_of_mem_children hc).2 hxp)⟩

namespace Matching

open Expression

variable {p : Problem} {m m' a b : Mapping} {s s' : State} {r r' c c' x y n : Nat} {q : Quality}

/-- Two unmatched nodes of one signature whose children are exact pairs with each other. -/
structure Ripe (p : Problem) (m : Mapping) (r c : Nat) : Prop where
  reference : m.comparisonFor? r = none
  comparison : m.referenceFor? c = none
  inner : p.reference.children r ≠ []
  children : ∀ x ∈ p.reference.children r,
    ∃ y ∈ p.comparison.children c, m.correspondence? x = some ⟨y, .exact⟩
  width : (p.comparison.children c).length = (p.reference.children r).length
  agree : p.signaturesAgree r c = true
  admitted : p.admits m r c = true

namespace Ripe

theorem lt_sizes (h : Ripe p m r c) : r < p.reference.size ∧ c < p.comparison.size := by
  obtain ⟨x, hx⟩ := List.exists_mem_of_ne_nil _ h.inner
  obtain ⟨y, hy, -⟩ := h.children x hx
  exact ⟨(lt_size_of_mem_children hx).2, (lt_size_of_mem_children hy).2⟩

theorem comparison_unique (h : Ripe p m r c) (h' : Ripe p m r c') : c = c' := by
  obtain ⟨x, hx⟩ := List.exists_mem_of_ne_nil _ h.inner
  obtain ⟨y, hy, hxy⟩ := h.children x hx
  obtain ⟨y', hy', hxy'⟩ := h'.children x hx
  obtain rfl : y = y' := by simpa [hxy] using hxy'
  exact parent_unique hy hy'

section Valid

variable (hm : m.Valid p.reference.size p.comparison.size)

include hm

/-- As many children on either side leave no child of the comparison node without a partner. -/
theorem exists_partner (h : Ripe p m r c) (hy : y ∈ p.comparison.children c) :
    ∃ x ∈ p.reference.children r, m.comparisonFor? x = some y := by
  have hpartners : ((p.reference.children r).filterMap m.comparisonFor?).length =
      (p.reference.children r).length := by
    rw [List.length_filterMap_eq_countP, List.countP_eq_length]
    intro x hx
    obtain ⟨y, -, hxy⟩ := h.children x hx
    rw [Mapping.comparisonFor?_eq_some_iff.2 ⟨_, hxy⟩]
    rfl
  have hnodup : ((p.reference.children r).filterMap m.comparisonFor?).Nodup := by
    rw [List.Nodup, List.pairwise_filterMap]
    refine (p.reference.children_nodup r).imp fun hne => ?_
    intro y hy z hz heq
    exact hne (hm.injective hy (heq ▸ hz))
  have hsubset : (p.reference.children r).filterMap m.comparisonFor? ⊆
      p.comparison.children c := by
    intro z hz
    obtain ⟨x, hx, hxz⟩ := List.mem_filterMap.1 hz
    obtain ⟨y, hy, hxy⟩ := h.children x hx
    rw [Mapping.comparisonFor?_eq_some_iff.2 ⟨_, hxy⟩] at hxz
    rwa [← Option.some.inj hxz]
  have hperm := (List.subperm_of_subset hnodup hsubset).perm_of_length_le
    (Nat.le_of_eq (h.width.trans hpartners.symm))
  exact List.mem_filterMap.1 (hperm.symm.subset hy)

theorem reference_unique (h : Ripe p m r c) (h' : Ripe p m r' c) : r = r' := by
  obtain ⟨x, hx⟩ := List.exists_mem_of_ne_nil _ h.inner
  obtain ⟨y, hy, hxy⟩ := h.children x hx
  obtain ⟨x', hx', hxy'⟩ := h'.exists_partner hm hy
  obtain rfl := hm.injective (Mapping.comparisonFor?_eq_some_iff.2 ⟨_, hxy⟩) hxy'
  exact parent_unique hx hx'

/-- Of two crossing pairs, a child of one and its partner would cross the other already. -/
theorem not_crosses (hp : p.Guarded) (h : Ripe p m r c) (h' : Ripe p m r' c') :
    ¬ p.Crosses r c r' c' := by
  have habove : ∀ {r r' c c'}, Ripe p m r c → Ripe p m r' c' →
      p.reference.isAncestor r r' = true → p.comparison.isAncestor c' c = true → False := by
    intro r r' c c' h h' hr hc
    obtain ⟨hrsize, hcsize⟩ := h'.lt_sizes
    obtain ⟨x, hx, hxr⟩ := exists_child_of_isAncestor hrsize hr
    obtain ⟨y, hy, hxy⟩ := h.children x hx
    have hpair := Mapping.comparisonFor?_eq_some_iff.2 ⟨_, hxy⟩
    have hcross : p.Crosses x y r' c' := by
      refine .inl ⟨hxr.resolve_left ?_, (isAncestor_of_mem_children hy).2 (.inr hc)⟩
      rintro rfl
      simp [h'.reference] at hpair
    exact ((hp.admits_iff hm hrsize hcsize).1 h'.admitted).2 x y hpair hcross
  rintro (⟨hr, hc⟩ | ⟨hr, hc⟩)
  · exact habove h h' hr hc
  · exact habove h' h hr hc

theorem insert (hp : p.Guarded) (h : Ripe p m r c) (h' : Ripe p m r' c') (hne : r ≠ r')
    (hinsert : m.insert? r c .exact = some m') : Ripe p m' r' c' := by
  obtain ⟨hrsize, hcsize⟩ := h'.lt_sizes
  have hcne : c ≠ c' := by
    rintro rfl
    exact hne (h.reference_unique hm h')
  refine ⟨?_, ?_, h'.inner, ?_, h'.width, h'.agree, ?_⟩
  · rw [Mapping.comparisonFor?_insert? hinsert, if_neg hne.symm, h'.reference]
  · rw [Mapping.referenceFor?_insert? hinsert, if_neg hcne.symm, h'.comparison]
  · intro x hx
    obtain ⟨y, hy, hxy⟩ := h'.children x hx
    exact ⟨y, hy, Mapping.Extends.of_insert? hinsert x _ hxy⟩
  · rw [hp.admits_insert?_iff hm hrsize hcsize hinsert]
    exact ⟨h'.admitted, h.not_crosses hm hp h'⟩

end Valid
end Ripe

/-- A mapping becomes another one by raising a ripe pair. -/
inductive Raises (p : Problem) : Mapping → Mapping → Prop
  | pair {m m' : Mapping} {r c : Nat} (hvalid : m.Valid p.reference.size p.comparison.size)
      (hripe : Ripe p m r c) (hinsert : m.insert? r c .exact = some m') : Raises p m m'

/-- Two ripe pairs can be raised one after the other. -/
theorem raises_diamond (hp : p.Guarded) (ha : Raises p m a) (hb : Raises p m b) :
    ∃ d, Relation.ReflGen (Raises p) a d ∧ Relation.ReflTransGen (Raises p) b d := by
  obtain ⟨hvalid, hripe, hinsert⟩ := ha
  obtain ⟨-, hripe', hinsert'⟩ := hb
  rename_i r c r' c'
  by_cases hr : r = r'
  · subst hr
    obtain rfl := hripe.comparison_unique hripe'
    rw [hinsert] at hinsert'
    rw [Option.some.inj hinsert']
    exact ⟨b, .refl, .refl⟩
  · have hc : c ≠ c' := by
      rintro rfl
      exact hr (hripe.reference_unique hvalid hripe')
    obtain ⟨d, hda, hdb⟩ := Mapping.insert?_comm hinsert hinsert' hr hc
    exact ⟨d, .single (.pair (hvalid.insert hinsert)
        (hripe.insert hvalid hp hripe' hr hinsert) hda),
      .single (.pair (hvalid.insert hinsert')
        (hripe'.insert hvalid hp hripe (Ne.symm hr) hinsert') hdb)⟩

/-- Raising pairs until none is ripe has one result. -/
theorem raises_unique (hp : p.Guarded) (ha : Relation.ReflTransGen (Raises p) m a)
    (hb : Relation.ReflTransGen (Raises p) m b) (ha' : ∀ r c, ¬ Ripe p a r c)
    (hb' : ∀ r c, ¬ Ripe p b r c) : a = b := by
  have hend : ∀ {a d}, (∀ r c, ¬ Ripe p a r c) → Relation.ReflTransGen (Raises p) a d → a = d := by
    intro a d hnone h
    rcases Relation.ReflTransGen.cases_head h with heq | ⟨_, ⟨_, hripe, _⟩, _⟩
    · exact heq
    · exact absurd hripe (hnone _ _)
  obtain ⟨d, had, hbd⟩ := Relation.church_rosser (fun _ _ _ => raises_diamond hp) ha hb
  rw [hend ha' had, hend hb' hbd]

theorem partnerParent?_eq_some_iff : commonParent?.partnerParent? p m x = some c ↔
    ∃ y ∈ p.comparison.children c, m.correspondence? x = some ⟨y, .exact⟩ := by
  unfold commonParent?.partnerParent?
  cases hfound : m.correspondence? x with
  | none => simp
  | some found =>
    obtain ⟨y, q⟩ := found
    cases q <;> simp [parent?_eq_some_iff]

/-- The common parent is the one node with all partners among its children. -/
theorem commonParent?_eq_some_iff {xs : List Nat} : commonParent? p m xs = some c ↔
    xs ≠ [] ∧ ∀ x ∈ xs, ∃ y ∈ p.comparison.children c, m.correspondence? x = some ⟨y, .exact⟩ := by
  simp only [← partnerParent?_eq_some_iff]
  cases xs with
  | nil => simp [commonParent?]
  | cons x xs =>
    have hfirst : commonParent? p m (x :: xs) = (commonParent?.partnerParent? p m x).bind
        fun parent => if xs.all (fun other =>
          decide (commonParent?.partnerParent? p m other = some parent)) then some parent
          else none := by
      cases hfound : m.correspondence? x with
      | none => simp [commonParent?, commonParent?.partnerParent?, hfound]
      | some found =>
        by_cases hexact : found.quality = .exact <;>
          simp [commonParent?, commonParent?.partnerParent?, hfound, hexact]
    rw [hfirst]
    cases hx : commonParent?.partnerParent? p m x with
    | none => simp [hx]
    | some parent =>
      simp only [Option.bind_some, List.all_eq_true, decide_eq_true_eq,
        Option.ite_none_right_eq_some, Option.some.injEq, List.forall_mem_cons, hx]
      constructor
      · rintro ⟨hrest, rfl⟩
        exact ⟨List.cons_ne_nil _ _, rfl, hrest⟩
      · rintro ⟨-, rfl, hrest⟩
        exact ⟨hrest, rfl⟩

section Checks

variable (hp : p.Guarded)

include hp

/-- The check of a ripe node pairs it. -/
theorem checkParent_of_ripe (hm : s.mapping.Valid p.reference.size p.comparison.size)
    (h : Ripe p s.mapping r c) :
    ∃ s', s.pair? p r c .exact = some s' ∧ checkParent p s r = s' := by
  obtain ⟨hr, hc⟩ := h.lt_sizes
  obtain ⟨m, hinsert⟩ := hm.exists_insert? hr hc h.reference h.comparison .exact
  obtain ⟨s', hs'⟩ := State.exists_pair? h.admitted hinsert
  refine ⟨s', hs', ?_⟩
  have hcommon : commonParent? p s.mapping (p.reference.children r) = some c :=
    commonParent?_eq_some_iff.2 ⟨h.inner, h.children⟩
  unfold checkParent
  dsimp only
  rw [hp.safeguards, Mapping.hasReference_eq_false_iff.2 h.reference, hcommon]
  dsimp only
  rw [Mapping.hasComparison_eq_false_iff.2 h.comparison, h.width,
    ask_reference hp.toOwn (by simpa using hr), ask_comparison hp.toOwn (by simpa using hc),
    h.agree]
  simp [State.pair, hs']

theorem checkParent_of_not_ripe (h : ∀ c, ¬ Ripe p s.mapping r c) : checkParent p s r = s := by
  refine (checkParent_cases hp.toOwn (s := s) (r := r)).resolve_right ?_
  rintro ⟨c, hcommon, hwidth, halike, hpair⟩
  obtain ⟨hinner, hchildren⟩ := commonParent?_eq_some_iff.1 hcommon
  obtain ⟨hadmits, hinsert, -, -⟩ := State.pair?_eq_some hpair
  obtain ⟨hr, hc⟩ := Mapping.insert?_free hinsert
  exact h c ⟨hr, hc, hinner, hchildren, hwidth, halike.signaturesAgree, hadmits⟩

end Checks

/-- A node is waiting in a worklist. -/
def Worklist.Waits (w : Worklist) (n : Nat) : Prop :=
  ∃ entry ∈ w.entries, entry.2 = n

theorem Worklist.waits_mark {w : Worklist} {node rank : Nat} :
    (w.mark node rank).Waits n ↔ n = node ∨ w.Waits n := by
  unfold mark
  split
  · rename_i hwaits
    rw [List.any_eq_true] at hwaits
    obtain ⟨entry, hentry, heq⟩ := hwaits
    constructor
    · exact .inr
    · rintro (rfl | h)
      · exact ⟨entry, hentry, beq_iff_eq.1 heq⟩
      · exact h
  · simp [Waits, eq_comm]

theorem Worklist.waits_pop {w rest : Worklist} {node : Nat} (h : w.pop? = some (node, rest)) :
    w.Waits n ↔ n = node ∨ rest.Waits n := by
  unfold pop? at h
  split at h
  · simp at h
  · rename_i entry tail heq
    obtain ⟨rfl, rfl⟩ := Prod.mk.inj (Option.some.inj h)
    simp [Waits, heq, eq_comm]

/-- All ripe nodes wait for their check. -/
def Watched (p : Problem) (s : State) : Prop :=
  ∀ r c, Ripe p s.mapping r c → s.worklist.Waits r

theorem watched_initial (p : Problem) : Watched p (.initial p) := by
  intro r c h
  obtain ⟨x, hx⟩ := List.exists_mem_of_ne_nil _ h.inner
  obtain ⟨y, -, hxy⟩ := h.children x hx
  change (Mapping.empty p.reference.size p.comparison.size).correspondence? x = _ at hxy
  simp at hxy

/-- A new pair makes no other node ripe than the parent of its reference node, which is marked. -/
theorem watched_pair? (hp : p.Guarded) (hm : s.mapping.Valid p.reference.size p.comparison.size)
    (hs : ∀ a b, Ripe p s.mapping a b → a ≠ r → s.worklist.Waits a)
    (h : s.pair? p r c q = some s') : Watched p s' := by
  obtain ⟨hadmits, hinsert, -, -⟩ := State.pair?_eq_some h
  have hworklist : s'.worklist = State.wake p s'.mapping s.worklist r := by
    unfold State.pair? at h
    rw [if_pos hadmits] at h
    obtain ⟨m, -, rfl⟩ := Option.map_eq_some_iff.1 h
    rfl
  have hextends := Mapping.Extends.of_insert? hinsert
  intro a b hripe
  rw [hworklist, State.wake]
  by_cases hra : r ∈ p.reference.children a
  · rw [parent?_eq_some_iff.2 hra]
    dsimp only
    rw [Mapping.hasReference_eq_false_iff.2 hripe.reference]
    exact Worklist.waits_mark.2 (.inl rfl)
  · have hold : Ripe p s.mapping a b := by
      refine ⟨hextends.unmatched hripe.reference,
        hextends.unmatched_comparison hm (hm.insert hinsert) hripe.comparison, hripe.inner, ?_,
        hripe.width, hripe.agree, ?_⟩
      · intro x hx
        obtain ⟨y, hy, hxy⟩ := hripe.children x hx
        rw [Mapping.correspondence?_insert? hinsert, if_neg (by rintro rfl; exact hra hx)] at hxy
        exact ⟨y, hy, hxy⟩
      · obtain ⟨ha, hb⟩ := hripe.lt_sizes
        exact ((hp.admits_insert?_iff hm ha hb hinsert).1 hripe.admitted).1
    have hne : a ≠ r := by
      rintro rfl
      have hmatched := hripe.reference
      rw [Mapping.comparisonFor?_insert? hinsert, if_pos rfl] at hmatched
      simp at hmatched
    have hwaits := hs a b hold hne
    split
    · exact hwaits
    · split
      · exact hwaits
      · exact Worklist.waits_mark.2 (.inr hwaits)

/-- While parents are checked: all pairs that are made are raised, and a pair that is waiting has
the children of its comparison node matched. -/
structure Checking (p : Problem) (m : Mapping) (s : State) : Prop where
  valid : s.mapping.Valid p.reference.size p.comparison.size
  watched : Watched p s
  raised : Relation.ReflTransGen (Raises p) m s.mapping
  taken : ∀ r ∈ s.pending, ∀ c, s.mapping.comparisonFor? r = some c →
    ∀ y ∈ p.comparison.children c, s.mapping.hasComparison y = true

theorem checking_step? (hp : p.Guarded) (hs : Checking p m s) (h : step? p s = some s') :
    Checking p m s' := by
  obtain ⟨hvalid, hwatched, hraised, htaken⟩ := hs
  have hrest : ∀ {r rest}, s.pending = r :: rest → Checking p m { s with pending := rest } := by
    intro r rest hpending
    refine ⟨hvalid, hwatched, hraised, fun a ha => htaken a ?_⟩
    rw [hpending]
    exact List.mem_cons_of_mem r ha
  rcases step?_cases h with ⟨r, rest, hpending, -, rfl⟩ | ⟨r, c, rest, hpending, hc, rfl⟩ |
    ⟨parent, rest, hpending, hpop, rfl⟩
  · exact hrest hpending
  · have hfull := htaken r (hpending ▸ List.mem_cons_self) c hc
    rw [pairChildren_of_taken (s := { s with pending := rest }) hfull]
    exact hrest hpending
  · have hothers : ∀ a b, Ripe p s.mapping a b → a ≠ parent → rest.Waits a := by
      intro a b hripe hne
      exact ((Worklist.waits_pop hpop).1 (hwatched a b hripe)).resolve_left hne
    by_cases hripe : ∃ c, Ripe p s.mapping parent c
    · obtain ⟨c, hripe⟩ := hripe
      obtain ⟨t, hpair, ht⟩ :=
        checkParent_of_ripe (s := { s with worklist := rest }) hp hvalid hripe
      obtain ⟨-, hinsert, hqueue, -⟩ := State.pair?_eq_some hpair
      rw [ht]
      refine ⟨hvalid.insert hinsert,
        watched_pair? (s := { s with worklist := rest }) hp hvalid hothers hpair,
        hraised.tail (.pair hvalid hripe hinsert), ?_⟩
      intro a ha b hab y hy
      obtain rfl : a = parent := by simpa [hqueue, hpending] using ha
      obtain rfl : c = b := by simpa [Mapping.comparisonFor?_insert? hinsert] using hab
      obtain ⟨x, -, hxy⟩ := hripe.exists_partner hvalid hy
      have hpair := (Mapping.Extends.of_insert? hinsert).comparisonFor? hxy
      exact Mapping.hasComparison_iff.2 ⟨x, ((hvalid.insert hinsert).agree x y).1 hpair⟩
    · rw [checkParent_of_not_ripe (s := { s with worklist := rest }) hp
        fun c hc => hripe ⟨c, hc⟩]
      refine ⟨hvalid, fun a b hab => hothers a b hab ?_, hraised, htaken⟩
      rintro rfl
      exact hripe ⟨b, hab⟩

/-- The checks raise pairs until none is ripe. -/
theorem raises_settle (hp : p.Guarded) (hm : s.mapping.Valid p.reference.size p.comparison.size)
    (hs : Watched p s) (hpending : s.pending = []) :
    (settle p s).mapping.Valid p.reference.size p.comparison.size ∧
      Relation.ReflTransGen (Raises p) s.mapping (settle p s).mapping ∧
      ∀ r c, ¬ Ripe p (settle p s).mapping r c := by
  have hstart : Checking p s.mapping s := ⟨hm, hs, .refl, by simp [hpending]⟩
  obtain ⟨hchecking, -⟩ := settle_induction (fun _ _ h => checking_step? hp h) hstart
  refine ⟨hchecking.valid, hchecking.raised, fun r c hripe => ?_⟩
  obtain ⟨entry, hentry, -⟩ := hchecking.watched r c hripe
  have hend := (step?_eq_none_iff.1 (step?_settle p s)).2
  unfold Worklist.pop? at hend
  cases hentries : (settle p s).worklist.entries with
  | nil => simp [hentries] at hentry
  | cons first rest => simp [hentries] at hend

end Matching
end Concordance
