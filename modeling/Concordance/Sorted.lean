/-!
# Stable sorting by insertion

Several steps of a correlation visit nodes in a stated order. `sortBy` puts a
list into the order of a Boolean comparison by repeated insertion. Its result
is a permutation of the list (`sortBy_perm`), and it is ordered whenever the
comparison is total and transitive (`sortBy_pairwise`).
-/
namespace Concordance

variable {α : Type}

/-- Puts an element in front of the first one that it may precede. -/
def insertBy (le : α → α → Bool) (x : α) : List α → List α
  | [] => [x]
  | y :: ys => if le x y then x :: y :: ys else y :: insertBy le x ys

/-- Sorts a list; elements that compare equal keep their order. -/
def sortBy (le : α → α → Bool) (xs : List α) : List α :=
  xs.foldr (insertBy le) []

/-- The natural numbers of a list in ascending order. -/
def ascending (xs : List Nat) : List Nat :=
  sortBy (fun a b => decide (a ≤ b)) xs

theorem insertBy_perm (le : α → α → Bool) (x : α) (xs : List α) :
    (insertBy le x xs).Perm (x :: xs) := by
  induction xs with
  | nil => exact .refl _
  | cons y ys ih =>
    rw [insertBy]
    split
    · exact .refl _
    · exact (ih.cons y).trans (.swap x y ys)

theorem sortBy_perm (le : α → α → Bool) (xs : List α) : (sortBy le xs).Perm xs := by
  induction xs with
  | nil => exact .refl _
  | cons x xs ih => exact (insertBy_perm le x _).trans (ih.cons x)

@[simp] theorem mem_insertBy {le : α → α → Bool} {x z : α} {xs : List α} :
    z ∈ insertBy le x xs ↔ z = x ∨ z ∈ xs := by
  simp [(insertBy_perm le x xs).mem_iff]

@[simp] theorem mem_sortBy {le : α → α → Bool} {z : α} {xs : List α} :
    z ∈ sortBy le xs ↔ z ∈ xs :=
  (sortBy_perm le xs).mem_iff

theorem insertBy_pairwise {le : α → α → Bool} (total : ∀ a b, le a b = true ∨ le b a = true)
    (trans : ∀ a b c, le a b = true → le b c = true → le a c = true) (x : α) {xs : List α}
    (h : xs.Pairwise (fun a b => le a b = true)) :
    (insertBy le x xs).Pairwise (fun a b => le a b = true) := by
  induction xs with
  | nil => simp [insertBy]
  | cons y ys ih =>
    obtain ⟨hy, hys⟩ := List.pairwise_cons.1 h
    rw [insertBy]
    split
    · rename_i hxy
      refine List.pairwise_cons.2 ⟨fun z hz => ?_, h⟩
      rcases List.mem_cons.1 hz with rfl | hz
      · exact hxy
      · exact trans _ _ _ hxy (hy z hz)
    · rename_i hxy
      refine List.pairwise_cons.2 ⟨fun z hz => ?_, ih hys⟩
      rcases mem_insertBy.1 hz with rfl | hz
      · exact (total _ _).resolve_left hxy
      · exact hy z hz

theorem sortBy_pairwise {le : α → α → Bool} (total : ∀ a b, le a b = true ∨ le b a = true)
    (trans : ∀ a b c, le a b = true → le b c = true → le a c = true) (xs : List α) :
    (sortBy le xs).Pairwise (fun a b => le a b = true) := by
  induction xs with
  | nil => exact .nil
  | cons x xs ih => exact insertBy_pairwise total trans x ih

/-- A comparison that tells all elements apart leaves no trace of the order before sorting. -/
theorem sortBy_eq_of_perm {le : α → α → Bool} (total : ∀ a b, le a b = true ∨ le b a = true)
    (trans : ∀ a b c, le a b = true → le b c = true → le a c = true)
    (antisymm : ∀ a b, le a b = true → le b a = true → a = b) {xs ys : List α}
    (h : xs.Perm ys) : sortBy le xs = sortBy le ys :=
  List.Perm.eq_of_pairwise (fun a b _ _ => antisymm a b) (sortBy_pairwise total trans xs)
    (sortBy_pairwise total trans ys) ((sortBy_perm le xs).trans (h.trans (sortBy_perm le ys).symm))

theorem ascending_perm (xs : List Nat) : (ascending xs).Perm xs :=
  sortBy_perm _ xs

@[simp] theorem mem_ascending {z : Nat} {xs : List Nat} : z ∈ ascending xs ↔ z ∈ xs :=
  mem_sortBy

theorem ascending_pairwise (xs : List Nat) : (ascending xs).Pairwise (· ≤ ·) := by
  refine (sortBy_pairwise ?_ ?_ xs).imp fun h => of_decide_eq_true h
  · intro a b
    simp only [decide_eq_true_eq]
    omega
  · intro a b c
    simp only [decide_eq_true_eq]
    omega

theorem ascending_eq_of_perm {xs ys : List Nat} (h : xs.Perm ys) : ascending xs = ascending ys :=
  List.Perm.eq_of_pairwise (fun _ _ _ _ => Nat.le_antisymm) (ascending_pairwise xs)
    (ascending_pairwise ys) ((ascending_perm xs).trans (h.trans (ascending_perm ys).symm))

theorem nodup_eraseDups [BEq α] [LawfulBEq α] (xs : List α) : xs.eraseDups.Nodup := by
  match xs with
  | [] => exact List.nodup_nil
  | x :: xs =>
    rw [List.eraseDups_cons, List.nodup_cons]
    exact ⟨by simp [List.mem_eraseDups], nodup_eraseDups _⟩
termination_by xs.length
decreasing_by exact Nat.lt_succ_of_le (List.length_filter_le _ _)

/-- The different numbers of a list, each of them once. -/
theorem ascending_eraseDups_pairwise (xs : List Nat) :
    (ascending xs.eraseDups).Pairwise (· < ·) := by
  have hnodup : (ascending xs.eraseDups).Nodup :=
    (ascending_perm _).nodup_iff.2 (nodup_eraseDups xs)
  exact (ascending_pairwise _).imp₂ (fun _ _ hle hne => Nat.lt_of_le_of_ne hle hne) hnodup

end Concordance
