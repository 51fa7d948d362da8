import Concordance.Graph

/-!
# Pre-order walks of graphs

A pre-order walk lists nodes of the graph, each of them once, and a node only
when it is the start or a child of a node that is listed before. The invariant
speaks about the stack as well: what waits there is the start or a child of a
listed node. In return the walk misses no child of a listed node.
-/
namespace Concordance.Graph

/-- One node of a graph is a child of another. -/
def Edge (g : Graph) (a b : Nat) : Prop :=
  b ∈ g.children a

variable {g : Graph}

/-- Every entry of a list is the start or a child of an earlier entry. -/
def ParentsFirst (g : Graph) (start : Nat) (order : List Nat) : Prop :=
  ∀ (i n : Nat), order[i]? = some n →
    n = start ∨ ∃ (j p : Nat), j < i ∧ order[j]? = some p ∧ g.Edge p n

/-- An entry of a list with one more element at its end is an entry of the list, or the new one. -/
theorem getElem?_concat_cases {order : List Nat} {i m n : Nat} (h : (order ++ [n])[i]? = some m) :
    order[i]? = some m ∨ i = order.length ∧ m = n := by
  by_cases hi : i < order.length
  · rw [List.getElem?_append_left hi] at h
    exact .inl h
  · obtain ⟨j, rfl⟩ := Nat.exists_eq_add_of_le (Nat.not_lt.1 hi)
    rw [List.getElem?_append_right (Nat.le_add_right _ _), Nat.add_sub_cancel_left] at h
    cases j with
    | zero => exact .inr ⟨rfl, (Option.some.inj h).symm⟩
    | succ j => simp at h

theorem getElem?_concat_of_some {order : List Nat} {i m n : Nat} (h : order[i]? = some m) :
    (order ++ [n])[i]? = some m := by
  rw [List.getElem?_append_left (List.getElem?_eq_some_iff.1 h).1, h]

theorem ParentsFirst.concat {start n : Nat} {order : List Nat} (h : g.ParentsFirst start order)
    (hn : n = start ∨ ∃ p ∈ order, g.Edge p n) : g.ParentsFirst start (order ++ [n]) := by
  intro i m hm
  rcases getElem?_concat_cases hm with hm | ⟨rfl, rfl⟩
  · rcases h i m hm with rfl | ⟨j, p, hj, hp, hedge⟩
    · exact .inl rfl
    · exact .inr ⟨j, p, hj, getElem?_concat_of_some hp, hedge⟩
  · rcases hn with rfl | ⟨p, hp, hedge⟩
    · exact .inl rfl
    · obtain ⟨j, hj⟩ := List.mem_iff_getElem?.1 hp
      exact .inr ⟨j, p, (List.getElem?_eq_some_iff.1 hj).1, getElem?_concat_of_some hj, hedge⟩

/-- What a pre-order walk has listed so far. -/
structure Listed (g : Graph) (start : Nat) (order : List Nat) : Prop where
  nodup : order.Nodup
  lt_size : ∀ n ∈ order, n < g.size
  parentsFirst : g.ParentsFirst start order

theorem listed_preOrderFrom {start : Nat} {stack order : List Nat} (h : g.Listed start order)
    (hstack : ∀ n ∈ stack, n = start ∨ ∃ p ∈ order, g.Edge p n) :
    g.Listed start (g.preOrderFrom stack order) := by
  fun_induction g.preOrderFrom stack order with
  | case1 order => exact h
  | case2 order n rest hn ih =>
    refine ih ⟨?_, ?_, h.parentsFirst.concat (hstack n List.mem_cons_self)⟩ ?_
    · rw [List.nodup_append]
      refine ⟨h.nodup, by simp, ?_⟩
      rintro m hm _ hmem rfl
      exact hn.2 (List.mem_singleton.1 hmem ▸ hm)
    · intro m hm
      rcases List.mem_append.1 hm with hm | hm
      · exact h.lt_size m hm
      · exact List.mem_singleton.1 hm ▸ hn.1
    · intro m hm
      rcases List.mem_append.1 hm with hm | hm
      · exact .inr ⟨n, by simp, hm⟩
      · rcases hstack m (List.mem_cons_of_mem _ hm) with rfl | ⟨p, hp, hedge⟩
        · exact .inl rfl
        · exact .inr ⟨p, List.mem_append_left _ hp, hedge⟩
  | case3 order n rest hn ih =>
    exact ih h fun m hm => hstack m (List.mem_cons_of_mem _ hm)

theorem listed_preOrder (g : Graph) : g.Listed g.root g.preOrder := by
  refine listed_preOrderFrom ⟨.nil, by simp, ?_⟩ (by simp)
  intro i n h
  simp at h

/-- A walk lists what it has listed so far and what waits on its stack, and with every node its
children. -/
theorem closed_preOrderFrom {stack order : List Nat}
    (h : ∀ a ∈ order, ∀ b < g.size, g.Edge a b → b ∈ order ∨ b ∈ stack) :
    (∀ n ∈ order, n ∈ g.preOrderFrom stack order) ∧
      (∀ n ∈ stack, n < g.size → n ∈ g.preOrderFrom stack order) ∧
      ∀ a ∈ g.preOrderFrom stack order, ∀ b < g.size, g.Edge a b →
        b ∈ g.preOrderFrom stack order := by
  fun_induction g.preOrderFrom stack order with
  | case1 order =>
    refine ⟨fun _ hn => hn, by simp, ?_⟩
    intro a ha b hb hedge
    exact (h a ha b hb hedge).resolve_right (by simp)
  | case2 order n rest hn ih =>
    obtain ⟨hlisted, hstack, hclosed⟩ := ih (by
      intro a ha b hb hedge
      rcases List.mem_append.1 ha with ha | ha
      · rcases h a ha b hb hedge with hmem | hmem
        · exact .inl (List.mem_append_left _ hmem)
        · rcases List.mem_cons.1 hmem with rfl | hmem
          · exact .inl (by simp)
          · exact .inr (List.mem_append_right _ hmem)
      · rw [List.mem_singleton.1 ha] at hedge
        exact .inr (List.mem_append_left _ hedge))
    refine ⟨fun m hm => hlisted m (List.mem_append_left _ hm), fun m hm hsize => ?_, hclosed⟩
    rcases List.mem_cons.1 hm with rfl | hm
    · exact hlisted m (by simp)
    · exact hstack m (List.mem_append_right _ hm) hsize
  | case3 order n rest hn ih =>
    obtain ⟨hlisted, hstack, hclosed⟩ := ih (by
      intro a ha b hb hedge
      rcases h a ha b hb hedge with hmem | hmem
      · exact .inl hmem
      · rcases List.mem_cons.1 hmem with rfl | hmem
        · exact .inl (Decidable.byContradiction fun hnew => hn ⟨hb, hnew⟩)
        · exact .inr hmem)
    refine ⟨hlisted, fun m hm hsize => ?_, hclosed⟩
    rcases List.mem_cons.1 hm with rfl | hm
    · exact hlisted m (Decidable.byContradiction fun hnew => hn ⟨hsize, hnew⟩)
    · exact hstack m hm hsize

/-- A walk comes to every node but the root from a node that it lists as well. -/
theorem exists_edge_of_mem_preOrder {n : Nat} (hn : n ∈ g.preOrder) (hroot : n ≠ g.root) :
    ∃ a ∈ g.preOrder, g.Edge a n := by
  obtain ⟨i, hi⟩ := List.mem_iff_getElem?.1 hn
  obtain ⟨j, a, -, ha, hedge⟩ := (g.listed_preOrder.parentsFirst i n hi).resolve_left hroot
  exact ⟨a, List.mem_of_getElem? ha, hedge⟩

theorem root_mem_preOrder (h : g.root < g.size) : g.root ∈ g.preOrder :=
  (closed_preOrderFrom (by simp)).2.1 g.root (by simp) h

theorem mem_preOrder_of_edge {a b : Nat} (ha : a ∈ g.preOrder) (hedge : g.Edge a b)
    (hb : b < g.size) : b ∈ g.preOrder :=
  (closed_preOrderFrom (by simp)).2.2 a ha b hb hedge

/-- A walk that comes to all nodes lists them once each. -/
theorem preOrder_perm_range (h : ∀ n < g.size, n ∈ g.preOrder) :
    g.preOrder.Perm (List.range g.size) := by
  rw [List.perm_ext_iff_of_nodup g.listed_preOrder.nodup List.nodup_range]
  intro n
  rw [List.mem_range]
  exact ⟨g.listed_preOrder.lt_size n, h n⟩

end Concordance.Graph
