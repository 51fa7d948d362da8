import Concordance.Proofs.Matching.History
import Concordance.Proofs.Matching.Settings
import Concordance.Proofs.Subtree

/-!
# The spine is connected

The last pass pairs the two roots, then what the earlier passes left over of the
definition sets below them, and on request the children of two paired sets. All
these are children of partners, and such children are refused for their kinds
only, whatever was paired before: a pair that they crossed would cross the pair
of their parents. So the pass goes on until one side has no set of a kind left.
-/
namespace Concordance
namespace Matching

open Expression

variable {p : Problem} {m m' : Mapping} {s s' : State} {a b r c : Nat} {kind : Kind}

theorem admits_of_partners (hp : p.Guarded) (hm : m.Safe p.reference p.comparison)
    (hab : m.comparisonFor? a = some b) (hr : r ∈ p.reference.children a)
    (hc : c ∈ p.comparison.children b) (hkind : p.reference.kind? r = p.comparison.kind? c) :
    p.admits m r c = true := by
  have hrs := (lt_size_of_mem_children hr).1
  have hcs := (lt_size_of_mem_children hc).1
  refine (hp.admits_iff hm.valid hrs hcs).2 ⟨hkind, fun x y hxy hcross => ?_⟩
  obtain ⟨hxs, hys⟩ := hm.valid.lt_sizes hxy
  rcases hcross with ⟨hxr, hcy⟩ | ⟨hrx, hyc⟩
  · have hby := isAncestor_of_isAncestor_child hc hys hcy
    rcases (isAncestor_of_mem_children hr).1 hxr with rfl | hxa
    · rw [Option.some.inj (hab.symm.trans hxy)] at hby
      have := depth_lt_of_isAncestor hys hby
      omega
    · exact hm.upright x y a b hxy hab ⟨hxa, hby⟩
  · have hax := isAncestor_of_isAncestor_child hr hxs hrx
    rcases (isAncestor_of_mem_children hc).1 hyc with rfl | hyb
    · rw [hm.valid.injective hab hxy] at hax
      have := depth_lt_of_isAncestor hxs hax
      omega
    · exact hm.upright a b x y hab hxy ⟨hax, hyb⟩

/-- Unmatched children of partners are paired if they are of one kind. -/
theorem insert?_of_partners (hp : p.Guarded) (hs : s.mapping.Safe p.reference p.comparison)
    (hab : s.mapping.comparisonFor? a = some b) (hr : r ∈ p.reference.children a)
    (hc : c ∈ p.comparison.children b) (hkind : p.reference.kind? r = p.comparison.kind? c)
    (hunmatched : s.mapping.comparisonFor? r = none) (hfree : s.mapping.referenceFor? c = none) :
    s.mapping.insert? r c .approximate = some (s.pair p r c .approximate).mapping := by
  obtain ⟨m, hm⟩ := hs.valid.exists_insert? (lt_size_of_mem_children hr).1
    (lt_size_of_mem_children hc).1 hunmatched hfree .approximate
  obtain ⟨s', hs'⟩ := State.exists_pair? (admits_of_partners hp hs hab hr hc hkind) hm
  rw [State.pair, hs', Option.getD_some]
  exact (State.pair?_eq_some hs').2.1

/-- A safe mapping with the pair of the two roots. -/
structure Standing (p : Problem) (m : Mapping) : Prop where
  safe : m.Safe p.reference p.comparison
  roots : m.comparisonFor? p.reference.root = some p.comparison.root

namespace Standing

variable (hp : p.Guarded) (hs : Standing p s.mapping) (h : Grows p s s')

include hp hs h

theorem grows : Standing p s'.mapping :=
  ⟨safe_of_grows hp hs.safe h, h.extension.comparisonFor? hs.roots⟩

theorem hasComparison (hc : s.mapping.hasComparison c = true) :
    s'.mapping.hasComparison c = true :=
  h.extension.hasComparison hs.safe.valid (hs.grows hp h).safe.valid hc

end Standing

/-- Unmatched children of the two roots of one kind. -/
structure LeftOver (p : Problem) (m : Mapping) (kind : Kind) (xs ys : List Nat) : Prop where
  reference_nodup : xs.Nodup
  comparison_nodup : ys.Nodup
  reference : ∀ x ∈ xs, x ∈ p.reference.children p.reference.root ∧
    p.reference.kind? x = some kind ∧ m.comparisonFor? x = none
  comparison : ∀ y ∈ ys, y ∈ p.comparison.children p.comparison.root ∧
    p.comparison.kind? y = some kind ∧ m.referenceFor? y = none

theorem leftOver_unmatched (p : Problem) (m : Mapping) (kind : Kind) :
    LeftOver p m kind (unmatchedReferenceSets p m kind) (unmatchedComparisonSets p m kind) where
  reference_nodup := (ascending_perm _).nodup_iff.2 ((children_nodup _ _).filter _)
  comparison_nodup := (ascending_perm _).nodup_iff.2 ((children_nodup _ _).filter _)
  reference x hx := by
    simpa [unmatchedReferenceSets, ← Mapping.hasReference_eq_false_iff] using hx
  comparison y hy := by
    simpa [unmatchedComparisonSets, ← Mapping.hasComparison_eq_false_iff] using hy

/-- The first two sets that are left over are paired, and the others stay left over. -/
theorem LeftOver.pair (hp : p.Guarded) (hs : Standing p s.mapping) {x y : Nat} {xs ys : List Nat}
    (h : LeftOver p s.mapping kind (x :: xs) (y :: ys)) :
    (s.pair p x y .approximate).mapping.comparisonFor? x = some y ∧
      LeftOver p (s.pair p x y .approximate).mapping kind xs ys := by
  obtain ⟨hx, hkind, hunmatched⟩ := h.reference x (by simp)
  obtain ⟨hy, hkind', hfree⟩ := h.comparison y (by simp)
  obtain ⟨hxs, hnodup⟩ := List.nodup_cons.1 h.reference_nodup
  obtain ⟨hys, hnodup'⟩ := List.nodup_cons.1 h.comparison_nodup
  have hinsert := insert?_of_partners hp hs.safe hs.roots hx hy (hkind.trans hkind'.symm)
    hunmatched hfree
  refine ⟨by rw [Mapping.comparisonFor?_insert? hinsert, if_pos rfl], hnodup, hnodup', ?_, ?_⟩
  · intro z hz
    rw [Mapping.comparisonFor?_insert? hinsert, if_neg (ne_of_mem_of_not_mem hz hxs)]
    exact h.reference z (by simp [hz])
  · intro z hz
    rw [Mapping.referenceFor?_insert? hinsert, if_neg (ne_of_mem_of_not_mem hz hys)]
    exact h.comparison z (by simp [hz])

/-- Pairing what is left over goes on until one side has nothing left. -/
theorem exhausts_zip (hp : p.Guarded) {xs ys : List Nat} (hs : Standing p s.mapping)
    (h : LeftOver p s.mapping kind xs ys) :
    let t := (xs.zip ys).foldl (fun s sets => s.pair p sets.1 sets.2 .approximate) s
    (∀ x ∈ xs, t.mapping.hasReference x = true) ∨ ∀ y ∈ ys, t.mapping.hasComparison y = true := by
  induction xs generalizing ys s with
  | nil => exact .inl (by simp)
  | cons x xs ih =>
    cases ys with
    | nil => exact .inr (by simp)
    | cons y ys =>
      obtain ⟨hxy, hrest⟩ := h.pair hp hs
      have hnext : Standing p (s.pair p x y .approximate).mapping :=
        hs.grows hp (State.grows_pair (by simp))
      have hafter : Grows p (s.pair p x y .approximate)
          (((x :: xs).zip (y :: ys)).foldl (fun s sets => s.pair p sets.1 sets.2 .approximate) s) :=
        .foldl _ _ (fun _ _ _ => State.grows_pair (by simp)) _
      have hxy := hafter.extension.comparisonFor? hxy
      refine (ih hnext hrest).imp (fun hxs => ?_) fun hys => ?_
      · rw [List.forall_mem_cons]
        exact ⟨Mapping.hasReference_iff.2 ⟨y, hxy⟩, hxs⟩
      · rw [List.forall_mem_cons]
        have hvalid := (hnext.grows hp hafter).safe.valid
        exact ⟨Mapping.hasComparison_iff.2 ⟨x, (hvalid.agree x y).1 hxy⟩, hys⟩

/-- The children of the two roots of a kind are all matched on one of the two sides. -/
def SetsMatched (p : Problem) (m : Mapping) (kind : Kind) : Prop :=
  (∀ r ∈ p.reference.children p.reference.root, p.reference.kind? r = some kind →
    m.hasReference r = true) ∨
  ∀ c ∈ p.comparison.children p.comparison.root, p.comparison.kind? c = some kind →
    m.hasComparison c = true

theorem SetsMatched.grows (hp : p.Guarded) (hs : Standing p s.mapping) (h : Grows p s s')
    (hkind : SetsMatched p s.mapping kind) : SetsMatched p s'.mapping kind :=
  hkind.imp (fun hall r hr hrk => h.extension.hasReference (hall r hr hrk))
    fun hall c hc hck => hs.hasComparison hp h (hall c hc hck)

theorem setsMatched_pairSets (hp : p.Guarded) (hs : Standing p s.mapping) :
    SetsMatched p (pairSets p s kind).mapping kind := by
  have hgrows := grows_pairSets (p := p) s kind
  refine (exhausts_zip hp hs (leftOver_unmatched p s.mapping kind)).imp ?_ ?_
  · intro hall r hr hkind
    cases hmatched : s.mapping.hasReference r with
    | true => exact hgrows.extension.hasReference hmatched
    | false => exact hall r (by simp [unmatchedReferenceSets, hr, hkind, hmatched])
  · intro hall c hc hkind
    cases hmatched : s.mapping.hasComparison c with
    | true => exact hs.hasComparison hp hgrows hmatched
    | false => exact hall c (by simp [unmatchedComparisonSets, hc, hkind, hmatched])

/-- What every step of a loop attains for its own element and leaves to the others holds of all
elements in the end. -/
theorem foldl_attains {α : Type} {P : State → Prop} {Q : α → State → Prop}
    (f : State → α → State) (xs : List α)
    (hstep : ∀ s, P s → ∀ x ∈ xs, P (f s x) ∧ Q x (f s x))
    (hkeep : ∀ s, P s → ∀ x ∈ xs, ∀ y ∈ xs, Q y s → Q y (f s x)) (hs : P s) :
    P (xs.foldl f s) ∧ ∀ x ∈ xs, Q x (xs.foldl f s) := by
  induction xs generalizing s with
  | nil => exact ⟨hs, by simp⟩
  | cons x xs ih =>
    obtain ⟨hP, hQ⟩ := hstep s hs x (by simp)
    obtain ⟨hend, hall⟩ := ih (fun t ht y hy => hstep t ht y (by simp [hy]))
      (fun t ht y hy z hz => hkeep t ht y (by simp [hy]) z (by simp [hz])) hP
    -- what the first step attained is left alone by the others
    have hfirst := List.foldlRecOn (motive := fun t => P t ∧ Q x t) xs f ⟨hP, hQ⟩
      fun t ht y hy => ⟨(hstep t ht.1 y (by simp [hy])).1,
        hkeep t ht.1 y (by simp [hy]) x (by simp) ht.2⟩
    refine ⟨hend, ?_⟩
    rw [List.forall_mem_cons]
    exact ⟨hfirst.2, hall⟩

theorem setsMatched_foldl (hp : p.Guarded) (hs : Standing p s.mapping) (kinds : List Kind) :
    Standing p (kinds.foldl (pairSets p) s).mapping ∧
      ∀ kind ∈ kinds, SetsMatched p (kinds.foldl (pairSets p) s).mapping kind :=
  foldl_attains (P := fun t => Standing p t.mapping)
    (Q := fun kind t => SetsMatched p t.mapping kind) (pairSets p) kinds
    (fun t ht kind _ => ⟨ht.grows hp (grows_pairSets t kind), setsMatched_pairSets hp ht⟩)
    (fun t ht kind _ _ _ hdone => hdone.grows hp ht (grows_pairSets t kind)) hs

/-- The only children of two definition sets are not both unmatched, unless their kinds differ. -/
def Joined (p : Problem) (m : Mapping) (a b : Nat) : Prop :=
  ∃ x y, p.reference.children a = [x] ∧ p.comparison.children b = [y] ∧
    (p.reference.kind? x = p.comparison.kind? y →
      m.hasReference x = true ∨ m.hasComparison y = true)

theorem Joined.grows (hp : p.Guarded) (hs : Standing p s.mapping) (h : Grows p s s')
    (hjoined : Joined p s.mapping a b) : Joined p s'.mapping a b := by
  obtain ⟨x, y, hx, hy, hmatched⟩ := hjoined
  exact ⟨x, y, hx, hy, fun hkind => (hmatched hkind).imp h.extension.hasReference
    (hs.hasComparison hp h)⟩

theorem comparisonFor?_connectSet (ha : a ∈ referenceSets p)
    (hr : r ∈ p.reference.children p.reference.root) :
    (connectSet p s a).mapping.comparisonFor? r = s.mapping.comparisonFor? r := by
  unfold connectSet
  split
  · rfl
  · split
    · rename_i x y hx hy
      split
      · rfl
      · rcases State.pair_cases p s x y .approximate with hsame | hpair
        · rw [hsame]
        · obtain ⟨-, hinsert, -, -⟩ := State.pair?_eq_some hpair
          rw [Mapping.comparisonFor?_insert? hinsert, if_neg]
          rintro rfl
          have htop := parent_unique (List.mem_of_head? hx) hr
          exact p.reference.root_notMem_children _ (htop ▸ (mem_referenceSets.1 ha).1)
    · rfl

theorem joined_connectSet (hp : p.Guarded) (hs : Standing p s.mapping) (ha : a ∈ referenceSets p)
    (hab : s.mapping.comparisonFor? a = some b) : Joined p (connectSet p s a).mapping a b := by
  obtain ⟨-, kind, hset, hkind⟩ := mem_referenceSets.1 ha
  have hkind' := (hs.safe.kinds a b hab).symm.trans hkind
  obtain ⟨x, hx⟩ := exists_only_child hkind hset
  obtain ⟨y, hy⟩ := exists_only_child hkind' hset
  refine ⟨x, y, hx, hy, fun hkinds => ?_⟩
  by_cases hopen : s.mapping.hasReference x = true ∨ s.mapping.hasComparison y = true
  · exact hopen.imp (grows_connectSet s a).extension.hasReference
      (hs.hasComparison hp (grows_connectSet s a))
  · rw [not_or, Bool.not_eq_true, Bool.not_eq_true] at hopen
    have hinsert := insert?_of_partners hp hs.safe hab (by simp [hx]) (by simp [hy]) hkinds
      (Mapping.hasReference_eq_false_iff.1 hopen.1) (Mapping.hasComparison_eq_false_iff.1 hopen.2)
    have hconnect : connectSet p s a = s.pair p x y .approximate := by
      simp [connectSet, hab, hx, hy, hopen]
    left
    rw [hconnect, Mapping.hasReference_iff]
    exact ⟨y, by rw [Mapping.comparisonFor?_insert? hinsert, if_pos rfl]⟩

/-- Which sets are paired does not change while their children are. -/
theorem joined_foldl (hp : p.Guarded) (hs : Standing p s.mapping) :
    let t := (referenceSets p).foldl (connectSet p) s
    ∀ a ∈ referenceSets p, ∀ b, t.mapping.comparisonFor? a = some b → Joined p t.mapping a b := by
  have hstays : ∀ (t : State), ∀ a ∈ referenceSets p, ∀ x ∈ referenceSets p,
      (connectSet p t a).mapping.comparisonFor? x = t.mapping.comparisonFor? x :=
    fun t a ha x hx => comparisonFor?_connectSet ha (mem_referenceSets.1 hx).1
  refine (foldl_attains (P := fun t => Standing p t.mapping)
    (Q := fun a t => ∀ b, t.mapping.comparisonFor? a = some b → Joined p t.mapping a b)
    (connectSet p) (referenceSets p) ?_ ?_ hs).2
  · intro t ht a ha
    refine ⟨ht.grows hp (grows_connectSet t a), fun b hab => ?_⟩
    rw [hstays t a ha a ha] at hab
    exact joined_connectSet hp ht ha hab
  · intro t ht a ha x hx hjoined b hxb
    rw [hstays t a ha x hx] at hxb
    exact (hjoined b hxb).grows hp ht (grows_connectSet t a)

theorem standing_pairRoots (hp : p.Guarded) :
    Standing p (pairRoots p (afterOverlap p)).mapping := by
  have hgrows := (grows_afterSignatures hp.toOwn).trans (grows_afterOverlap hp.toOwn)
  have hfair : Fair p (afterOverlap p).mapping := (Fair.empty p).grows hgrows
  have hsafe : (State.initial p).mapping.Safe p.reference p.comparison := .empty _ _
  exact ⟨safe_of_grows hp hsafe (hgrows.trans grows_pairRoots), comparisonFor?_pairRoots hfair⟩

theorem connected_run (hp : p.Guarded) :
    (∀ kind : Kind, kind.isSet = true → SetsMatched p (run p).mapping kind) ∧
      (p.config.connectSpine = true → ∀ a ∈ referenceSets p, ∀ b,
        (run p).mapping.comparisonFor? a = some b → Joined p (run p).mapping a b) := by
  rw [mapping_run hp.toOwn]
  obtain ⟨hstanding, hsets⟩ := setsMatched_foldl hp (standing_pairRoots hp)
    [.necessarySet, .sufficientSet, .propertySet]
  have hkinds : ∀ kind : Kind, kind.isSet = true →
      kind ∈ [Kind.necessarySet, .sufficientSet, .propertySet] := by
    intro kind hkind
    cases kind <;> simp_all [Kind.isSet]
  unfold spinePairs
  dsimp only
  split
  · have hgrows := Grows.foldl (p := p) (connectSet p) (referenceSets p)
      (fun a _ s => grows_connectSet s a)
      ([Kind.necessarySet, .sufficientSet, .propertySet].foldl (pairSets p)
        (pairRoots p (afterOverlap p)))
    exact ⟨fun kind hkind => (hsets kind (hkinds kind hkind)).grows hp hstanding hgrows,
      fun _ => joined_foldl hp hstanding⟩
  · rename_i hrequested
    exact ⟨fun kind hkind => hsets kind (hkinds kind hkind), fun h => absurd h hrequested⟩

/-- For all expressions and settings the definition sets below the two roots are connected: no kind
of them is left over on both sides, and with the spine connected neither are the children of two
paired sets, if they are of one kind. -/
theorem spine_connected (reference comparison : Expression) (config : Config) :
    let m := Mapping.ofExpressions reference comparison config
    (∀ kind : Kind, kind.isSet = true →
      (∀ r ∈ reference.children reference.root, reference.kind? r = some kind →
        m.hasReference r = true) ∨
      ∀ c ∈ comparison.children comparison.root, comparison.kind? c = some kind →
        m.hasComparison c = true) ∧
    (config.connectSpine = true → ∀ kind : Kind, kind.isSet = true →
      ∀ r ∈ reference.children reference.root, reference.kind? r = some kind →
        ∀ c, m.comparisonFor? r = some c →
          ∃ x y, reference.children r = [x] ∧ comparison.children c = [y] ∧
            (reference.kind? x = comparison.kind? y →
              m.hasReference x = true ∨ m.hasComparison y = true)) := by
  obtain ⟨hsets, hjoined⟩ :=
    connected_run (Problem.guarded_ofExpressions reference comparison config)
  refine ⟨hsets, fun hrequested kind hkind r hr hrk c hrc => ?_⟩
  exact hjoined hrequested r (mem_referenceSets.2 ⟨hr, kind, hkind, hrk⟩) c hrc

/-- A conjunction and a concept in two sets of one kind. -/
def Sample.twoNecessary : Expression where
  nodes := .ofList [⟨.concept 1, []⟩, ⟨.conjunction, [0]⟩, ⟨.necessarySet, [1]⟩, ⟨.concept 2, []⟩,
    ⟨.necessarySet, [3]⟩, ⟨.root, [2, 4]⟩]
  root := 5
  parents := #[some 1, some 2, some 5, some 4, some 5, none]
  valid := by decide +kernel

/-- A conjunction of another concept in a set of that kind. -/
def Sample.oneNecessary : Expression where
  nodes := .ofList [⟨.concept 3, []⟩, ⟨.conjunction, [0]⟩, ⟨.necessarySet, [1]⟩, ⟨.root, [2]⟩]
  root := 3
  parents := #[some 1, some 2, some 3, none]
  valid := by decide +kernel

theorem Sample.evaluated_necessary :
    (Mapping.ofExpressions twoNecessary oneNecessary {}).comparisonFor? 2 = some 2 ∧
      (Mapping.ofExpressions twoNecessary oneNecessary {}).comparisonFor? 4 = none := by
  decide +kernel

/-- The first of the two sets is paired, and so is its conjunction. -/
theorem spine_connected_necessary :
    let m := Mapping.ofExpressions Sample.twoNecessary Sample.oneNecessary {}
    m.comparisonFor? 4 = none ∧
      ((∀ r ∈ Sample.twoNecessary.children 5,
          Sample.twoNecessary.kind? r = some .necessarySet → m.hasReference r = true) ∨
        ∀ c ∈ Sample.oneNecessary.children 3,
          Sample.oneNecessary.kind? c = some .necessarySet → m.hasComparison c = true) ∧
      m.comparisonFor? 2 = some 2 ∧
      ∃ x y, Sample.twoNecessary.children 2 = [x] ∧ Sample.oneNecessary.children 2 = [y] ∧
        (Sample.twoNecessary.kind? x = Sample.oneNecessary.kind? y →
          m.hasReference x = true ∨ m.hasComparison y = true) := by
  obtain ⟨hsets, hjoined⟩ := spine_connected Sample.twoNecessary Sample.oneNecessary {}
  exact ⟨Sample.evaluated_necessary.2, hsets .necessarySet rfl, Sample.evaluated_necessary.1,
    hjoined rfl .necessarySet rfl 2 (by decide) rfl 2 Sample.evaluated_necessary.1⟩

end Matching
end Concordance
