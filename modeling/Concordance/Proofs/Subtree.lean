import Concordance.Proofs.Tree
import Mathlib.Data.List.Perm.Basic

/-!
# Subtrees and the two orders of a tree

The nodes of a subtree are listed by recursion, once with every node in front of
its children and once behind them. The subtrees of different children share no
node, so neither walk ever meets a visited node, and both walks of an expression
produce exactly these lists.
-/
namespace Concordance.Expression

variable {e : Expression} {n m p c a b top : Nat}

/-- Nodes of a subtree, each one in front of its children. -/
def subtree (e : Expression) (n : Nat) : List Nat :=
  n :: (e.children n).attach.flatMap fun c => e.subtree c.1
termination_by e.size - e.rank n
decreasing_by
  have hlt := rank_lt_of_mem_children c.2
  have := rank_lt_size (lt_size_of_mem_children c.2).1
  omega

/-- Nodes of a subtree, each one behind its children. -/
def subtreePost (e : Expression) (n : Nat) : List Nat :=
  ((e.children n).attach.flatMap fun c => e.subtreePost c.1) ++ [n]
termination_by e.size - e.rank n
decreasing_by
  have hlt := rank_lt_of_mem_children c.2
  have := rank_lt_size (lt_size_of_mem_children c.2).1
  omega

theorem subtree_eq (e : Expression) (n : Nat) :
    e.subtree n = n :: (e.children n).flatMap e.subtree := by
  rw [subtree]
  congr 1
  rw [List.flatMap_def, List.attach_map_val (f := e.subtree), ← List.flatMap_def]

theorem subtreePost_eq (e : Expression) (n : Nat) :
    e.subtreePost n = (e.children n).flatMap e.subtreePost ++ [n] := by
  rw [subtreePost]
  congr 1
  rw [List.flatMap_def, List.attach_map_val (f := e.subtreePost), ← List.flatMap_def]

theorem self_mem_subtree (e : Expression) (n : Nat) : n ∈ e.subtree n := by
  rw [subtree_eq]
  exact List.mem_cons_self

theorem subtreePost_perm (hn : n < e.size) : (e.subtreePost n).Perm (e.subtree n) := by
  induction n, hn using induction_up with
  | parent n hn ih =>
    rw [subtree_eq, subtreePost_eq]
    have hbelow : ((e.children n).flatMap e.subtreePost).Perm ((e.children n).flatMap e.subtree) :=
      List.Perm.flatMap_left _ ih
    exact (hbelow.append_right [n]).trans List.perm_append_comm

theorem mem_subtree_of_mem_children (hn : n < e.size) (hp : p ∈ e.subtree n)
    (hc : c ∈ e.children p) : c ∈ e.subtree n := by
  induction n, hn using induction_up with
  | parent n hn ih =>
    rw [subtree_eq] at hp ⊢
    refine List.mem_cons_of_mem _ (List.mem_flatMap.2 ?_)
    rcases List.mem_cons.1 hp with rfl | hp
    · exact ⟨c, hc, e.self_mem_subtree c⟩
    · obtain ⟨d, hd, hp⟩ := List.mem_flatMap.1 hp
      exact ⟨d, hd, ih d hd hp⟩

theorem isAncestor_of_isAncestor_child (hc : c ∈ e.children p) (hm : m < e.size)
    (h : e.isAncestor c m = true) : e.isAncestor p m = true := by
  induction m, hm using induction_down with
  | root => rw [not_isAncestor_root] at h; simp at h
  | child q d hd ih =>
    rw [isAncestor_of_mem_children hd] at h ⊢
    rcases h with rfl | h
    · exact .inr ((isAncestor_of_mem_children hc).2 (.inl rfl))
    · exact .inr (ih h)

theorem mem_subtree_iff (hn : n < e.size) : m ∈ e.subtree n ↔ m < e.size ∧ e.InSubtree n m := by
  constructor
  · intro h
    induction n, hn using induction_up with
    | parent n hn ih =>
      rw [subtree_eq] at h
      rcases List.mem_cons.1 h with rfl | h
      · exact ⟨hn, .inl rfl⟩
      · obtain ⟨d, hd, hm⟩ := List.mem_flatMap.1 h
        obtain ⟨hlt, hsub⟩ := ih d hd hm
        refine ⟨hlt, .inr ?_⟩
        rcases hsub with rfl | hsub
        · exact (isAncestor_of_mem_children hd).2 (.inl rfl)
        · exact isAncestor_of_isAncestor_child hd hlt hsub
  · rintro ⟨hm, h⟩
    refine induction_below (e.self_mem_subtree n) ?_ hm h
    intro p c hc hp
    exact mem_subtree_of_mem_children hn hp hc

/-- Among the nodes at one depth a node lies in the subtree of one only. -/
theorem eq_of_inSubtree (hm : m < e.size) (ha : e.InSubtree a m) (hb : e.InSubtree b m)
    (hdepth : e.depth a = e.depth b) : a = b := by
  induction m, hm using induction_down with
  | root =>
    simp only [InSubtree, not_isAncestor_root, Bool.false_eq_true, or_false] at ha hb
    rw [← ha, ← hb]
  | child p c hc ih =>
    have hlt := (lt_size_of_mem_children hc).1
    rcases ha with rfl | ha <;> rcases hb with rfl | hb
    · rfl
    · have := depth_lt_of_isAncestor hlt hb
      omega
    · have := depth_lt_of_isAncestor hlt ha
      omega
    · exact ih ((isAncestor_of_mem_children hc).1 ha) ((isAncestor_of_mem_children hc).1 hb)

theorem subtree_disjoint (ha : a ∈ e.children p) (hb : b ∈ e.children p) (hne : a ≠ b) :
    ∀ m ∈ e.subtree a, m ∉ e.subtree b := by
  intro m hma hmb
  obtain ⟨hm, hma⟩ := (mem_subtree_iff (lt_size_of_mem_children ha).1).1 hma
  obtain ⟨-, hmb⟩ := (mem_subtree_iff (lt_size_of_mem_children hb).1).1 hmb
  apply hne
  apply eq_of_inSubtree hm hma hmb
  rw [depth_of_mem_children ha, depth_of_mem_children hb]

theorem depth_le_of_mem_subtree (hn : n < e.size) (h : m ∈ e.subtree n) :
    e.depth n ≤ e.depth m := by
  obtain ⟨hm, h⟩ := (mem_subtree_iff hn).1 h
  rcases h with rfl | h
  · exact Nat.le_refl _
  · exact Nat.le_of_lt (depth_lt_of_isAncestor hm h).2

theorem notMem_subtree_of_mem_children (hc : c ∈ e.children p) : p ∉ e.subtree c := by
  intro h
  have := depth_le_of_mem_subtree (lt_size_of_mem_children hc).1 h
  rw [depth_of_mem_children hc] at this
  omega

theorem subtree_nodup (hn : n < e.size) : (e.subtree n).Nodup := by
  induction n, hn using induction_up with
  | parent n hn ih =>
    rw [subtree_eq, List.nodup_cons, List.nodup_flatMap]
    refine ⟨?_, ih, ?_⟩
    · intro h
      obtain ⟨c, hc, h⟩ := List.mem_flatMap.1 h
      exact notMem_subtree_of_mem_children hc h
    · exact (e.children_nodup n).imp_of_mem fun ha hb hne m hma hmb =>
        subtree_disjoint ha hb hne m hma hmb

theorem inSubtree_root (hn : n < e.size) : e.InSubtree e.root n := by
  induction n, hn using induction_down with
  | root => exact .inl rfl
  | child p c hc ih => exact .inr ((isAncestor_of_mem_children hc).2 ih)

theorem mem_subtree_root (hn : n < e.size) : n ∈ e.subtree e.root :=
  (mem_subtree_iff e.root_lt_size).2 ⟨hn, inSubtree_root hn⟩

theorem subtree_root_perm (e : Expression) : (e.subtree e.root).Perm (List.range e.size) := by
  rw [List.perm_ext_iff_of_nodup (subtree_nodup e.root_lt_size) List.nodup_range]
  intro m
  rw [mem_subtree_iff e.root_lt_size, List.mem_range]
  exact and_iff_left_of_imp inSubtree_root

/-- A pre-order walk that handles every tree of a forest by itself handles the forest. -/
theorem preOrderFrom_forest (cs : List Nat) {rest order : List Nat}
    (heach : ∀ c ∈ cs, ∀ rest order, (∀ m ∈ e.subtree c, m ∉ order) →
      e.graph.preOrderFrom (c :: rest) order = e.graph.preOrderFrom rest (order ++ e.subtree c))
    (hnodup : (cs.flatMap e.subtree).Nodup) (hfresh : ∀ m ∈ cs.flatMap e.subtree, m ∉ order) :
    e.graph.preOrderFrom (cs ++ rest) order =
      e.graph.preOrderFrom rest (order ++ cs.flatMap e.subtree) := by
  induction cs generalizing order with
  | nil => simp
  | cons c cs ih =>
    rw [List.flatMap_cons] at hnodup hfresh ⊢
    obtain ⟨-, hcs, hdisjoint⟩ := List.nodup_append.1 hnodup
    rw [List.cons_append, heach c List.mem_cons_self _ _
        (fun m hm => hfresh m (List.mem_append_left _ hm)),
      ih (fun d hd => heach d (List.mem_cons_of_mem _ hd)) hcs, List.append_assoc]
    intro m hm hmem
    rcases List.mem_append.1 hmem with hmem | hmem
    · exact hfresh m (List.mem_append_right _ hm) hmem
    · exact hdisjoint m hmem m hm rfl

theorem preOrderFrom_subtree (hn : n < e.size) (rest order : List Nat)
    (hfresh : ∀ m ∈ e.subtree n, m ∉ order) :
    e.graph.preOrderFrom (n :: rest) order = e.graph.preOrderFrom rest (order ++ e.subtree n) := by
  induction n, hn using induction_up generalizing rest order with
  | parent n hn ih =>
    have hnodup := subtree_nodup hn
    rw [subtree_eq] at hfresh hnodup ⊢
    obtain ⟨hself, hbelow⟩ := List.nodup_cons.1 hnodup
    have hvisit : n < e.graph.size ∧ n ∉ order := ⟨hn, hfresh n List.mem_cons_self⟩
    rw [Graph.preOrderFrom, if_pos hvisit]
    refine (preOrderFrom_forest (e.children n) ih hbelow ?_).trans ?_
    · intro m hm hmem
      rcases List.mem_append.1 hmem with hmem | hmem
      · exact hfresh m (List.mem_cons_of_mem _ hm) hmem
      · rw [List.mem_singleton.1 hmem] at hm
        exact hself hm
    · rw [List.append_assoc, List.singleton_append]

theorem preOrder_eq (e : Expression) : e.preOrder = e.subtree e.root := by
  rw [preOrder, Graph.preOrder]
  refine (preOrderFrom_subtree e.root_lt_size [] [] (by simp)).trans ?_
  rw [Graph.preOrderFrom, List.nil_append]

theorem postOrderFrom_forest (cs : List Nat) {entered order : List Nat} {rest : List Graph.Visit}
    (heach : ∀ c ∈ cs, ∀ rest entered order, (∀ m ∈ e.subtree c, m ∉ entered) →
      e.graph.postOrderFrom (.enter c :: rest) entered order =
        e.graph.postOrderFrom rest (entered ++ e.subtree c) (order ++ e.subtreePost c))
    (hnodup : (cs.flatMap e.subtree).Nodup) (hfresh : ∀ m ∈ cs.flatMap e.subtree, m ∉ entered) :
    e.graph.postOrderFrom (Graph.Visit.enterAll cs rest) entered order =
      e.graph.postOrderFrom rest (entered ++ cs.flatMap e.subtree)
        (order ++ cs.flatMap e.subtreePost) := by
  induction cs generalizing entered order with
  | nil => simp [Graph.Visit.enterAll]
  | cons c cs ih =>
    rw [List.flatMap_cons] at hnodup hfresh ⊢
    obtain ⟨-, hcs, hdisjoint⟩ := List.nodup_append.1 hnodup
    have hstack : Graph.Visit.enterAll (c :: cs) rest =
        .enter c :: Graph.Visit.enterAll cs rest := rfl
    rw [hstack, heach c List.mem_cons_self _ _ _
        (fun m hm => hfresh m (List.mem_append_left _ hm)),
      ih (fun d hd => heach d (List.mem_cons_of_mem _ hd)) hcs, List.append_assoc,
      List.flatMap_cons, List.append_assoc]
    intro m hm hmem
    rcases List.mem_append.1 hmem with hmem | hmem
    · exact hfresh m (List.mem_append_right _ hm) hmem
    · exact hdisjoint m hmem m hm rfl

theorem postOrderFrom_subtree (hn : n < e.size) (rest : List Graph.Visit) (entered order : List Nat)
    (hfresh : ∀ m ∈ e.subtree n, m ∉ entered) :
    e.graph.postOrderFrom (.enter n :: rest) entered order =
      e.graph.postOrderFrom rest (entered ++ e.subtree n) (order ++ e.subtreePost n) := by
  induction n, hn using induction_up generalizing rest entered order with
  | parent n hn ih =>
    have hnodup := subtree_nodup hn
    rw [subtree_eq] at hfresh hnodup ⊢
    obtain ⟨hself, hbelow⟩ := List.nodup_cons.1 hnodup
    have hvisit : n < e.graph.size ∧ n ∉ entered := ⟨hn, hfresh n List.mem_cons_self⟩
    rw [Graph.postOrderFrom, if_pos hvisit]
    refine (postOrderFrom_forest (e.children n) ih hbelow ?_).trans ?_
    · intro m hm hmem
      rcases List.mem_append.1 hmem with hmem | hmem
      · exact hfresh m (List.mem_cons_of_mem _ hm) hmem
      · rw [List.mem_singleton.1 hmem] at hm
        exact hself hm
    · rw [Graph.postOrderFrom, subtreePost_eq, List.append_assoc, List.singleton_append,
        List.append_assoc]

theorem postOrder_eq (e : Expression) : e.postOrder = e.subtreePost e.root := by
  rw [postOrder, Graph.postOrder]
  refine (postOrderFrom_subtree e.root_lt_size [] [] [] (by simp)).trans ?_
  rw [Graph.postOrderFrom, List.nil_append]

theorem postOrder_perm (e : Expression) : e.postOrder.Perm (List.range e.size) := by
  rw [postOrder_eq]
  exact (subtreePost_perm e.root_lt_size).trans e.subtree_root_perm

theorem mem_postOrder : n ∈ e.postOrder ↔ n < e.size := by
  rw [e.postOrder_perm.mem_iff, List.mem_range]

theorem postOrder_nodup (e : Expression) : e.postOrder.Nodup :=
  e.postOrder_perm.nodup_iff.2 List.nodup_range

/-- In the list of a subtree with nodes behind their children, no node has a child after it. -/
theorem subtreePost_pairwise (hn : n < e.size) :
    (e.subtreePost n).Pairwise fun a b => b ∉ e.children a := by
  induction n, hn using induction_up with
  | parent n hn ih =>
    rw [subtreePost_eq, List.pairwise_append, List.pairwise_flatMap]
    refine ⟨⟨ih, ?_⟩, List.pairwise_singleton _ _, ?_⟩
    · refine (e.children_nodup n).imp_of_mem fun {c d} hc hd hne a ha b hb hab => ?_
      have hlt := (lt_size_of_mem_children hc).1
      rw [(subtreePost_perm hlt).mem_iff] at ha
      rw [(subtreePost_perm (lt_size_of_mem_children hd).1).mem_iff] at hb
      exact subtree_disjoint hc hd hne b (mem_subtree_of_mem_children hlt ha hab) hb
    · intro a ha b hb
      rw [List.mem_singleton.1 hb]
      intro hab
      obtain ⟨c, hc, ha⟩ := List.mem_flatMap.1 ha
      have hlt := (lt_size_of_mem_children hc).1
      rw [(subtreePost_perm hlt).mem_iff] at ha
      exact notMem_subtree_of_mem_children hc (mem_subtree_of_mem_children hlt ha hab)

theorem postOrder_pairwise (e : Expression) : e.postOrder.Pairwise fun a b => b ∉ e.children a := by
  rw [postOrder_eq]
  exact subtreePost_pairwise e.root_lt_size

end Concordance.Expression
