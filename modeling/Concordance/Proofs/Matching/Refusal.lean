import Concordance.Proofs.Matching.Orderly

/-!
# Refused pairs

Two alike nodes that are both unmatched can still be refused: their kinds differ
if digests collide, or their pair would turn an ancestor into a descendant.
Further pairs take away no reason to refuse. The second pass tries every node,
so after it all alike nodes that are left over are refused, and propagation
finds nothing to do any more.
-/
namespace Concordance.Matching

open Expression

variable {p : Problem} {m m' : Mapping} {s s' : State} {r c : Nat}

theorem Problem.inverts_of_extends (hm : m.Valid p.reference.size p.comparison.size)
    (hm' : m'.Valid p.reference.size p.comparison.size) (h : m'.Extends m)
    (hinverts : p.inverts m r c = true) : p.inverts m' r c = true := by
  simp only [inverts, Bool.or_eq_true, List.any_eq_true, List.mem_filterMap] at hinverts ⊢
  rcases hinverts with ⟨b, ⟨a, ha, hab⟩, hencloses⟩ | ⟨a, ⟨b, hb, hab⟩, hencloses⟩
  · exact .inl ⟨b, ⟨a, ha, h.comparisonFor? hab⟩, hencloses⟩
  · have hpair := h.comparisonFor? ((hm.agree a b).2 hab)
    exact .inr ⟨a, ⟨b, hb, (hm'.agree a b).1 hpair⟩, hencloses⟩

theorem Problem.admits_of_extends (hm : m.Valid p.reference.size p.comparison.size)
    (hm' : m'.Valid p.reference.size p.comparison.size) (h : m'.Extends m)
    (hrefused : p.admits m r c = false) : p.admits m' r c = false := by
  simp only [admits, Bool.and_eq_false_iff, Bool.not_eq_false', Bool.and_eq_true] at hrefused ⊢
  exact hrefused.imp_right fun hguard => ⟨hguard.1, inverts_of_extends hm hm' h hguard.2⟩

/-- Whichever unmatched node is alike to a node that is unmatched itself, the pair is refused. -/
def Refuses (p : Problem) (m : Mapping) (r : Nat) : Prop :=
  ∀ c, Matchable p m r c → p.admits m r c = false

/-- All alike nodes that are left over are refused. -/
def Spent (p : Problem) (m : Mapping) : Prop :=
  ∀ r, Refuses p m r

theorem Refuses.of_matched (h : m.comparisonFor? r = some c) : Refuses p m r := by
  intro b hmatch
  simp [hmatch.reference] at h

theorem Refuses.of_extends (hm : m.Valid p.reference.size p.comparison.size)
    (hm' : m'.Valid p.reference.size p.comparison.size) (h : m'.Extends m)
    (hr : Refuses p m r) : Refuses p m' r := by
  intro c hmatch
  exact Problem.admits_of_extends hm hm' h (hr c (hmatch.of_extends hm hm' h))

theorem Spent.of_extends (hm : m.Valid p.reference.size p.comparison.size)
    (hm' : m'.Valid p.reference.size p.comparison.size) (h : m'.Extends m)
    (hs : Spent p m) : Spent p m' :=
  fun r => (hs r).of_extends hm hm' h

/-- No exact pair is accepted once all alike nodes are refused. -/
theorem Spent.pair?_eq_none (hs : Spent p s.mapping) (halike : p.Alike r c) :
    s.pair? p r c .exact = none := by
  cases h : s.pair? p r c .exact with
  | none => rfl
  | some s' =>
    obtain ⟨hadmits, hinsert, -, -⟩ := State.pair?_eq_some h
    obtain ⟨hr, hc⟩ := Mapping.insert?_free hinsert
    simp [hs r c ⟨halike, hr, hc⟩] at hadmits

section SecondPass

variable (hp : p.Own)

include hp

theorem refuses_pairBySignature (hs : s.mapping.Valid p.reference.size p.comparison.size)
    (hr : r < p.reference.size) : Refuses p (pairBySignature p s r).mapping r := by
  obtain ⟨free, ⟨hrefused, hsame⟩ | ⟨c, s', -, hpair, hnext⟩⟩ := pairBySignature_cases hp s hr
  · rw [← mapping_noteChoice s r free] at hs
    rw [hsame]
    intro c hmatch
    by_contra hadmits
    obtain ⟨hrsize, hcsize⟩ := hp.lt_sizes hmatch.alike
    obtain ⟨m, hm⟩ := hs.exists_insert? hrsize hcsize hmatch.reference hmatch.comparison .exact
    obtain ⟨s', hs'⟩ := State.exists_pair? (by simpa using hadmits) hm
    rw [hrefused c hmatch.alike] at hs'
    cases hs'
  · rw [hnext]
    obtain ⟨-, hinsert, -, -⟩ := State.pair?_eq_some hpair
    have hc : s'.mapping.comparisonFor? r = some c := by
      rw [Mapping.comparisonFor?_insert? hinsert, if_pos rfl]
    exact .of_matched ((grows_settle hp s').extension.comparisonFor? hc)

/-- Every node is tried once, and what was refused then is refused in the end. -/
theorem spent_signaturePass (hs : Fair p s.mapping) : Spent p (signaturePass p s).mapping := by
  have hloop : ∀ (xs : List Nat) (s : State), Fair p s.mapping → (∀ x ∈ xs, x < p.reference.size) →
      ∀ r, r ∈ xs ∨ Refuses p s.mapping r →
        Refuses p (xs.foldl (pairBySignature p) s).mapping r := by
    intro xs
    induction xs with
    | nil => intro s _ _ r hr; simpa using hr
    | cons x xs ih =>
      intro s hs hxs r hr
      have hx := hxs x List.mem_cons_self
      have hgrows := grows_pairBySignature hp (s := s) hx
      have hfair := hs.grows hgrows
      apply ih _ hfair fun y hy => hxs y (List.mem_cons_of_mem x hy)
      rcases hr with hr | hr
      · rcases List.mem_cons.1 hr with rfl | hr
        · exact .inr (refuses_pairBySignature hp hs.valid hx)
        · exact .inl hr
      · exact .inr (hr.of_extends hs.valid hfair.valid hgrows.extension)
  intro r c hmatch
  apply hloop p.largestFirst s hs (fun x hx => Problem.mem_largestFirst.1 hx) r _ c hmatch
  exact .inl (Problem.mem_largestFirst.2 (hp.lt_sizes hmatch.alike).1)

theorem spent_afterSignatures : Spent p (afterSignatures p).mapping := by
  have hanchors : Grows p (.initial p) (afterAnchors p) :=
    (grows_anchorPass hp _).trans (.note _ rfl)
  exact spent_signaturePass hp ((Fair.empty p).grows hanchors)

end SecondPass

section Settling

variable (hp : p.Own)

include hp

theorem pairChild_of_spent (hs : Spent p s.mapping) {child : Nat} {free : List Nat}
    (hchild : child < p.reference.size) (hfree : ∀ n ∈ free, n < p.comparison.size) :
    pairChild p (s, free) child = (s, free) := by
  refine (pairChild_cases hp hchild hfree).resolve_right ?_
  rintro ⟨y, -, halike, s', hpair, -⟩
  rw [hs.pair?_eq_none halike] at hpair
  cases hpair

theorem pairChildren_of_spent (hs : Spent p s.mapping) : pairChildren p s r c = s := by
  refine pairChildren_induction hp (P := fun t => t = s) (fun t x y t' ht halike hpair => ?_) rfl
  subst ht
  rw [hs.pair?_eq_none halike] at hpair
  cases hpair

theorem checkParent_of_spent (hs : Spent p s.mapping) : checkParent p s r = s := by
  refine (checkParent_cases hp).resolve_right ?_
  rintro ⟨c, -, -, halike, hpair⟩
  rw [hs.pair?_eq_none halike] at hpair
  cases hpair

theorem mapping_step?_of_spent (hs : Spent p s.mapping) (h : step? p s = some s') :
    s'.mapping = s.mapping := by
  rcases step?_cases h with ⟨r, rest, -, -, rfl⟩ | ⟨r, c, rest, -, -, rfl⟩ | ⟨r, rest, -, -, rfl⟩
  · rfl
  · rw [pairChildren_of_spent (s := { s with pending := rest }) hp hs]
  · rw [checkParent_of_spent (s := { s with worklist := rest }) hp hs]

/-- When all alike nodes that are left over are refused, propagation changes no pair. -/
theorem mapping_settle_of_spent (hs : Spent p s.mapping) :
    (settle p s).mapping = s.mapping := by
  refine (settle_induction (P := fun t => t.mapping = s.mapping) (fun t t' ht hstep => ?_) rfl).1
  rw [mapping_step?_of_spent hp (by rw [ht]; exact hs) hstep, ht]

end Settling
end Concordance.Matching
