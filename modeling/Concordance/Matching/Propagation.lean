import Concordance.Matching.State

/-!
# Propagation of pairs

A new pair is followed downwards and upwards until nothing is left to do: the
children of the two nodes are paired by equal signatures, and the parent of the
reference node is paired when all its children are matched exactly below one
comparison node of the same shape.
-/
namespace Concordance.Matching

variable (p : Problem)

/-- Pairs one child with the first free comparison node of the same signature that is accepted. -/
def pairChild (work : State × List Nat) (child : Nat) : State × List Nat :=
  let (s, free) := work
  if s.mapping.hasReference child then (s, free)
  else
    let s := (s.ask .reference p.referenceTable [child]).ask .comparison p.comparisonTable free
    let candidates := free.filter (p.signaturesAgree child)
    match candidates.findSome? (fun c => (s.pair? p child c .exact).map (·, c)) with
    | some (s', c) => (s', free.erase c)
    | none => (s, free)

/-- Pairs the unmatched children of a pair, ascending on either side. -/
def pairChildren (s : State) (r c : Nat) : State :=
  let free :=
    ascending ((p.comparison.children c).filter fun child => !s.mapping.hasComparison child)
  if free.isEmpty then s
  else ((ascending (p.reference.children r)).foldl (pairChild p) (s, free)).1

/-- The one comparison node below which all given reference nodes are matched exactly. -/
def commonParent? (m : Mapping) : List Nat → Option Nat
  | [] => none
  | child :: children => do
    let found ← m.correspondence? child
    let parent ← if found.quality = .exact then p.comparison.parent? found.comparison else none
    if children.all (fun other => decide (partnerParent? other = some parent)) then some parent
    else none
where
  partnerParent? (other : Nat) : Option Nat := do
    let found ← m.correspondence? other
    if found.quality = .exact then p.comparison.parent? found.comparison else none

/-- Checks a reference node for being an exact pair with the common parent of its children's
partners. -/
def checkParent (s : State) (r : Nat) : State :=
  if !p.safeguards.checkParents || s.mapping.hasReference r then s
  else
    match commonParent? p s.mapping (p.reference.children r) with
    | none => s
    | some c =>
      if s.mapping.hasComparison c
          || (p.comparison.children c).length != (p.reference.children r).length then s
      else
        let s := (s.ask .reference p.referenceTable [r]).ask .comparison p.comparisonTable [c]
        if p.signaturesAgree r c then s.pair p r c .exact else s

/-- Does the next thing that is waiting: children of new pairs come before checks of parents. -/
def step? (s : State) : Option State :=
  match s.pending with
  | r :: rest =>
    let s := { s with pending := rest }
    match s.mapping.comparisonFor? r with
    | none => some s
    | some c => some (pairChildren p s r c)
  | [] =>
    match s.worklist.pop? with
    | none => none
    | some (parent, rest) => some (checkParent p { s with worklist := rest } parent)

theorem work_pairChild_le (work : State × List Nat) (child : Nat) :
    (pairChild p work child).1.work ≤ work.1.work := by
  obtain ⟨s, free⟩ := work
  unfold pairChild
  dsimp only
  split
  · exact Nat.le_refl _
  · split
    · rename_i s' c found
      obtain ⟨c', -, hc'⟩ := List.exists_of_findSome?_eq_some found
      obtain ⟨t, accepted, eq⟩ := Option.map_eq_some_iff.1 hc'
      obtain ⟨rfl, rfl⟩ := Prod.mk.inj eq
      simpa using State.work_pair? accepted
    · simp

theorem work_pairChildren_le (s : State) (r c : Nat) : (pairChildren p s r c).work ≤ s.work := by
  unfold pairChildren
  dsimp only
  split
  · exact Nat.le_refl _
  · have run : ∀ (children : List Nat) (work : State × List Nat),
        (children.foldl (pairChild p) work).1.work ≤ work.1.work := by
      intro children
      induction children with
      | nil => intro work; exact Nat.le_refl _
      | cons child children ih =>
        intro work
        exact Nat.le_trans (ih _) (work_pairChild_le p work child)
    exact run _ _

theorem work_checkParent_le (s : State) (r : Nat) : (checkParent p s r).work ≤ s.work := by
  unfold checkParent
  split
  · exact Nat.le_refl _
  · split
    · exact Nat.le_refl _
    · dsimp only
      split
      · exact Nat.le_refl _
      · split
        · exact Nat.le_trans (State.work_pair_le p _ _ _ _) (by simp)
        · simp

/-- Every step leaves less to do. -/
theorem work_step? {s s' : State} (h : step? p s = some s') : s'.work < s.work := by
  unfold step? at h
  split at h
  · rename_i r rest waiting
    have less : ({ s with pending := rest } : State).work < s.work := by
      simp only [State.work, waiting, List.length_cons]
      omega
    dsimp only at h
    split at h
    · exact Option.some.inj h ▸ less
    · exact Option.some.inj h ▸ Nat.lt_of_le_of_lt (work_pairChildren_le p _ _ _) less
  · split at h
    · simp at h
    · rename_i parent rest popped
      have size := Worklist.size_pop popped
      refine Option.some.inj h ▸ Nat.lt_of_le_of_lt (work_checkParent_le p _ _) ?_
      simp only [State.work]
      omega

/-- Takes steps until nothing is waiting. -/
def settle (s : State) : State :=
  match _taken : step? p s with
  | none => s
  | some s' => settle s'
termination_by s.work
decreasing_by exact work_step? p _taken

end Concordance.Matching
