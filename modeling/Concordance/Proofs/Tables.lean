import Mathlib.Data.List.Nodup

/-!
# Tables filled along a list

Tables are filled by a fold over a list of nodes. If every step writes the entry
of its own node only, an entry is final from its step on; if no node has a child
behind it, the entries of the children are final before it.
-/
namespace Concordance.Tables

section Fold

variable {τ α : Type} (step : τ → Nat → τ) (value : τ → Nat → α)

theorem value_foldl_of_notMem (other : ∀ t n m, m ≠ n → value (step t n) m = value t m)
    {order : List Nat} {m : Nat} (hm : m ∉ order) (t : τ) :
    value (order.foldl step t) m = value t m := by
  induction order generalizing t with
  | nil => rfl
  | cons n order ih =>
    rw [List.mem_cons, not_or] at hm
    rw [List.foldl_cons, ih hm.2, other t n m hm.1]

/-- A fold in which every step computes the entry of its node from those of the children solves the
recursive equation of the table. -/
theorem value_foldl (valid : τ → Prop) (children : Nat → List Nat) (f : Nat → List α → α)
    (order : List Nat) (keeps : ∀ t n, valid t → valid (step t n))
    (own : ∀ t, valid t → ∀ n ∈ order, value (step t n) n = f n ((children n).map (value t)))
    (other : ∀ t n m, m ≠ n → value (step t n) m = value t m)
    (hself : ∀ n, n ∉ children n) (hnodup : order.Nodup)
    (hafter : order.Pairwise fun a b => b ∉ children a) {t : τ} (ht : valid t) :
    ∀ n ∈ order,
      value (order.foldl step t) n = f n ((children n).map (value (order.foldl step t))) := by
  induction order generalizing t with
  | nil => simp
  | cons n order ih =>
    obtain ⟨hn, hnodup⟩ := List.nodup_cons.1 hnodup
    obtain ⟨hbehind, hafter⟩ := List.pairwise_cons.1 hafter
    intro m hm
    rw [List.foldl_cons]
    rcases List.mem_cons.1 hm with rfl | hm
    · have hchild : ∀ c ∈ children m, value (order.foldl step (step t m)) c = value t c := by
        intro c hc
        have hcn : c ≠ m := fun h => hself m (h ▸ hc)
        have hco : c ∉ order := fun h => hbehind c h hc
        rw [value_foldl_of_notMem step value other hco, other t m c hcn]
      rw [value_foldl_of_notMem step value other hn, own t ht m List.mem_cons_self,
        List.map_congr_left hchild]
    · exact ih (fun t ht n hn => own t ht n (List.mem_cons_of_mem _ hn)) hnodup hafter
        (keeps t n ht) m hm

end Fold

section Set

variable {α : Type} {entries : List (Nat × α)} {table : Array α} {k : Nat} {v : α}

/-- Writes entries one after another. -/
def setAll (entries : List (Nat × α)) (table : Array α) : Array α :=
  entries.foldl (fun table entry => table.setIfInBounds entry.1 entry.2) table

@[simp] theorem size_setAll : (setAll entries table).size = table.size := by
  induction entries generalizing table with
  | nil => rfl
  | cons entry entries ih =>
    rw [setAll, List.foldl_cons]
    exact ih.trans Array.size_setIfInBounds

theorem getElem?_setAll_of_notMem (hk : k ∉ entries.map Prod.fst) :
    (setAll entries table)[k]? = table[k]? := by
  induction entries generalizing table with
  | nil => rfl
  | cons entry entries ih =>
    rw [List.map_cons, List.mem_cons, not_or] at hk
    rw [setAll, List.foldl_cons]
    exact (ih hk.2).trans (Array.getElem?_setIfInBounds_ne (Ne.symm hk.1))

/-- Under different keys every entry stays as it was written. -/
theorem getElem?_setAll (hnodup : (entries.map Prod.fst).Nodup) (hmem : (k, v) ∈ entries)
    (hk : k < table.size) : (setAll entries table)[k]? = some v := by
  induction entries generalizing table with
  | nil => simp at hmem
  | cons entry entries ih =>
    obtain ⟨hnew, hnodup⟩ := List.nodup_cons.1 hnodup
    rw [setAll, List.foldl_cons]
    rcases List.mem_cons.1 hmem with rfl | hmem
    · exact (getElem?_setAll_of_notMem hnew).trans (Array.getElem?_setIfInBounds_self_of_lt hk)
    · exact ih hnodup hmem (by rw [Array.size_setIfInBounds]; exact hk)

end Set

end Concordance.Tables
