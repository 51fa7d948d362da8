import Concordance.Proofs.Subtree
import Mathlib.Data.Finset.Card
import Mathlib.Data.Finset.Range
import Mathlib.Logic.Relation

/-!
# Walks as depth-first searches

A depth-first search enters a node, goes on from its children in stored order,
and leaves the node after them. It passes over what is out of range and what was
entered before. Here the search is defined by recursion, together with the nodes
that it has entered and those that it has left. The stack of a walk holds what
the calls of this recursion have still to do, so that the pre-order walk lists
the nodes in the order of entering them, and the post-order walk in the order of
leaving them.

A search leaves whatever it enters. If a child was entered before its parent and
is not left before it, the search was on its way down from the child when it came
to the parent, and the two lie on a cycle. So where the root reaches no cycle,
every child is left before its parents.
-/
namespace Concordance.Graph

variable {g : Graph} {a c n : Nat} {ns rest visited order : List Nat}

/-- What a search has entered and what it has left, each in order. -/
structure Search where
  entered : List Nat := []
  left : List Nat := []

namespace Search

def enter (s : Search) (n : Nat) : Search :=
  { s with entered := s.entered ++ [n] }

def leave (s : Search) (n : Nat) : Search :=
  { s with left := s.left ++ [n] }

/-- A node was entered and is not left yet. -/
def Open (s : Search) (n : Nat) : Prop :=
  n ∈ s.entered ∧ n ∉ s.left

@[simp] theorem entered_enter (s : Search) (n : Nat) : (s.enter n).entered = s.entered ++ [n] := rfl

@[simp] theorem left_enter (s : Search) (n : Nat) : (s.enter n).left = s.left := rfl

@[simp] theorem entered_leave (s : Search) (n : Nat) : (s.leave n).entered = s.entered := rfl

@[simp] theorem left_leave (s : Search) (n : Nat) : (s.leave n).left = s.left ++ [n] := rfl

end Search

def unvisited (g : Graph) (visited : List Nat) : Finset Nat :=
  (Finset.range g.size).filter (· ∉ visited)

theorem mem_unvisited : n ∈ g.unvisited visited ↔ n < g.size ∧ n ∉ visited := by
  rw [unvisited, Finset.mem_filter, Finset.mem_range]

theorem card_unvisited_lt (hn : n < g.size) (hnew : n ∉ visited) (h : visited ++ [n] ⊆ order) :
    (g.unvisited order).card < (g.unvisited visited).card := by
  apply Finset.card_lt_card
  rw [Finset.ssubset_iff_of_subset]
  · refine ⟨n, mem_unvisited.2 ⟨hn, hnew⟩, fun hmem => (mem_unvisited.1 hmem).2 (h ?_)⟩
    simp
  · intro m hm
    rw [mem_unvisited] at hm ⊢
    exact ⟨hm.1, fun hmem => hm.2 (h (List.mem_append_left _ hmem))⟩

/-- Goes on with a search from the nodes of a list, one after another. What was entered stays so,
and therefore the nodes that are left to enter become fewer with every call for children. -/
def searchAll (g : Graph) (s : Search) : (ns : List Nat) → { t : Search // s.entered ⊆ t.entered }
  | [] => ⟨s, List.Subset.refl _⟩
  | n :: ns =>
    if n < g.size ∧ n ∉ s.entered then
      let below := g.searchAll (s.enter n) (g.children n)
      let after := g.searchAll (below.1.leave n) ns
      ⟨after.1, fun _ hm => after.2 (below.2 (List.mem_append_left _ hm))⟩
    else g.searchAll s ns
termination_by ns => ((g.unvisited s.entered).card, ns.length)
decreasing_by
  · rename_i h
    exact Prod.Lex.left _ _ (card_unvisited_lt h.1 h.2 (List.Subset.refl _))
  · rename_i h
    exact Prod.Lex.left _ _ (card_unvisited_lt h.1 h.2 below.2)
  · exact Prod.Lex.right _ (Nat.lt_succ_self _)

/-- Where a search is after the nodes of a list. -/
def searchFrom (g : Graph) (s : Search) (ns : List Nat) : Search :=
  (g.searchAll s ns).1

def search (g : Graph) : Search :=
  g.searchFrom {} [g.root]

theorem searchFrom_nil (g : Graph) (s : Search) : g.searchFrom s [] = s := by
  rw [searchFrom, searchAll]

/-- A node that is entered is left after its children. -/
theorem searchFrom_enter {s : Search} (h : n < g.size ∧ n ∉ s.entered) :
    g.searchFrom s (n :: ns) =
      g.searchFrom ((g.searchFrom (s.enter n) (g.children n)).leave n) ns := by
  rw [searchFrom, searchAll, if_pos h]
  rfl

theorem searchFrom_pass {s : Search} (h : ¬ (n < g.size ∧ n ∉ s.entered)) :
    g.searchFrom s (n :: ns) = g.searchFrom s ns := by
  rw [searchFrom, searchAll, if_neg h]
  rfl

/-- What holds of an empty list of nodes and passes through a call for the children of a node,
and from the rest of a list to the list, holds of every search. -/
@[elab_as_elim]
theorem search_induction {motive : Search → List Nat → Prop} (done : ∀ s, motive s [])
    (enter : ∀ s n ns, n < g.size ∧ n ∉ s.entered → motive (s.enter n) (g.children n) →
      motive ((g.searchFrom (s.enter n) (g.children n)).leave n) ns → motive s (n :: ns))
    (pass : ∀ s n ns, ¬ (n < g.size ∧ n ∉ s.entered) → motive s ns → motive s (n :: ns))
    (s : Search) (ns : List Nat) : motive s ns := by
  induction s, ns using searchAll.induct g with
  | case1 s => exact done s
  | case2 s n ns h _ ihbelow ihafter => exact enter s n ns h ihbelow ihafter
  | case3 s n ns h ih => exact pass s n ns h ih

theorem preOrderFrom_eq_searchFrom (s : Search) (ns rest : List Nat) :
    g.preOrderFrom (ns ++ rest) s.entered = g.preOrderFrom rest (g.searchFrom s ns).entered := by
  induction s, ns using search_induction (g := g) generalizing rest with
  | done s => rw [searchFrom_nil, List.nil_append]
  | enter s n ns h ihbelow ihafter =>
    rw [List.cons_append, preOrderFrom, if_pos h, searchFrom_enter h, ← ihafter,
      Search.entered_leave, ← ihbelow, Search.entered_enter]
  | pass s n ns h ih => rw [List.cons_append, preOrderFrom, if_neg h, searchFrom_pass h, ih]

theorem postOrderFrom_eq_searchFrom (s : Search) (ns : List Nat) (rest : List Visit) :
    g.postOrderFrom (Visit.enterAll ns rest) s.entered s.left =
      g.postOrderFrom rest (g.searchFrom s ns).entered (g.searchFrom s ns).left := by
  have hcons : ∀ n ns rest,
      Visit.enterAll (n :: ns) rest = .enter n :: Visit.enterAll ns rest := fun _ _ _ => rfl
  induction s, ns using search_induction (g := g) generalizing rest with
  | done s =>
    rw [searchFrom_nil]
    rfl
  | enter s n ns h ihbelow ihafter =>
    have hbelow := ihbelow (.leave n :: Visit.enterAll ns rest)
    have hafter := ihafter rest
    simp only [Search.entered_enter, Search.left_enter] at hbelow
    simp only [Search.entered_leave, Search.left_leave] at hafter
    rw [hcons, postOrderFrom, if_pos h, hbelow, postOrderFrom, searchFrom_enter h, hafter]
  | pass s n ns h ih => rw [hcons, postOrderFrom, if_neg h, searchFrom_pass h, ih]

theorem preOrder_eq_entered (g : Graph) : g.preOrder = g.search.entered := by
  have h := preOrderFrom_eq_searchFrom (g := g) {} [g.root] []
  rwa [preOrderFrom] at h

theorem postOrder_eq_left (g : Graph) : g.postOrder = g.search.left := by
  have h := postOrderFrom_eq_searchFrom (g := g) {} [g.root] []
  rwa [postOrderFrom] at h

theorem entered_subset (g : Graph) (s : Search) (ns : List Nat) :
    s.entered ⊆ (g.searchFrom s ns).entered :=
  (g.searchAll s ns).2

theorem exists_perm_searchFrom (s : Search) (ns : List Nat) : ∃ xs ys,
    (g.searchFrom s ns).entered = s.entered ++ xs ∧ (g.searchFrom s ns).left = s.left ++ ys ∧
      ys.Perm xs := by
  induction s, ns using search_induction (g := g) with
  | done s =>
    rw [searchFrom_nil]
    exact ⟨[], [], by simp⟩
  | enter s n ns h ihbelow ihafter =>
    rw [searchFrom_enter h]
    obtain ⟨xs, ys, hentered, hleft, hperm⟩ := ihbelow
    obtain ⟨xs', ys', hentered', hleft', hperm'⟩ := ihafter
    refine ⟨[n] ++ xs ++ xs', ys ++ [n] ++ ys', ?_, ?_, ?_⟩
    · simp [hentered', hentered]
    · simp [hleft', hleft]
    · exact ((hperm.append_right [n]).trans List.perm_append_comm).append hperm'
  | pass s n ns h ih => rwa [searchFrom_pass h]

/-- After a search nothing is open that was not open before. -/
theorem open_of_open_searchFrom {s : Search} (h : (g.searchFrom s ns).Open a) : s.Open a := by
  obtain ⟨xs, ys, hentered, hleft, hperm⟩ := exists_perm_searchFrom (g := g) s ns
  obtain ⟨hmem, hnot⟩ := h
  rw [hentered, List.mem_append] at hmem
  rw [hleft, List.mem_append, not_or] at hnot
  exact ⟨hmem.resolve_right fun hxs => hnot.2 (hperm.mem_iff.2 hxs), hnot.1⟩

theorem mem_searchFrom {s : Search} (hc : c ∈ ns) (hsize : c < g.size) :
    c ∈ (g.searchFrom s ns).entered := by
  induction s, ns using search_induction (g := g) with
  | done s => simp at hc
  | enter s n ns h _ ihafter =>
    rw [searchFrom_enter h]
    rcases List.mem_cons.1 hc with rfl | hc
    · apply entered_subset
      rw [Search.entered_leave]
      apply entered_subset
      simp
    · exact ihafter hc
  | pass s n ns h ih =>
    rw [searchFrom_pass h]
    rcases List.mem_cons.1 hc with rfl | hc
    · exact entered_subset g s ns (by simpa [hsize] using h)
    · exact ih hc

theorem postOrder_perm_preOrder (g : Graph) : g.postOrder.Perm g.preOrder := by
  obtain ⟨xs, ys, hentered, hleft, hperm⟩ := exists_perm_searchFrom (g := g) {} [g.root]
  rw [postOrder_eq_left, preOrder_eq_entered, search, hentered, hleft]
  simpa using hperm

/-- A child reference that stays in range. -/
def Step (g : Graph) (a b : Nat) : Prop :=
  g.Edge a b ∧ b < g.size

/-- The root reaches a node along child references that stay in range. -/
def Reaches (g : Graph) (n : Nat) : Prop :=
  g.root < g.size ∧ Relation.ReflTransGen g.Step g.root n

theorem Reaches.lt_size (h : g.Reaches n) : n < g.size := by
  rcases Relation.ReflTransGen.cases_tail h.2 with rfl | ⟨a, -, hstep⟩
  · exact h.1
  · exact hstep.2

theorem Reaches.step (h : g.Reaches a) (hstep : g.Step a c) : g.Reaches c :=
  ⟨h.1, h.2.tail hstep⟩

/-- If only nodes have children, the root reaches what lies on any path from it. -/
theorem reaches_iff (h : ∀ m, g.size ≤ m → g.children m = []) :
    g.Reaches n ↔ n < g.size ∧ Relation.ReflTransGen g.Edge g.root n := by
  constructor
  · intro hn
    exact ⟨hn.lt_size, Relation.ReflTransGen.mono (fun _ _ hstep => hstep.1) _ _ hn.2⟩
  · rintro ⟨hsize, hpath⟩
    induction hpath with
    | refl => exact ⟨hsize, .refl⟩
    | @tail a b _ hedge ih =>
      have ha : a < g.size := by
        by_contra hout
        have hnil := h a (Nat.not_lt.1 hout)
        rw [Edge, hnil] at hedge
        simp at hedge
      exact (ih ha).step ⟨hedge, hsize⟩

theorem mem_preOrder_iff : n ∈ g.preOrder ↔ g.Reaches n := by
  constructor
  · intro hn
    obtain ⟨i, hi⟩ := List.mem_iff_getElem?.1 hn
    -- down to the root by the places of the nodes on the way
    induction i using Nat.strongRecOn generalizing n with
    | ind i ih =>
      have hsize := g.listed_preOrder.lt_size n hn
      rcases g.listed_preOrder.parentsFirst i n hi with rfl | ⟨j, p, hj, hp, hedge⟩
      · exact ⟨hsize, .refl⟩
      · exact (ih j hj (List.mem_of_getElem? hp) hp).step ⟨hedge, hsize⟩
  · rintro ⟨hroot, hpath⟩
    induction hpath with
    | refl => exact root_mem_preOrder hroot
    | tail _ hstep ih => exact mem_preOrder_of_edge ih hstep.1 hstep.2

/-- Every child in range of an entry is an earlier entry. -/
def ChildrenFirst (g : Graph) (order : List Nat) : Prop :=
  ∀ (i n : Nat), order[i]? = some n → ∀ c, g.Step n c → ∃ j < i, order[j]? = some c

theorem ChildrenFirst.concat (h : g.ChildrenFirst order) (hn : ∀ c, g.Step n c → c ∈ order) :
    g.ChildrenFirst (order ++ [n]) := by
  intro i m hm c hc
  rcases getElem?_concat_cases hm with hm | ⟨rfl, rfl⟩
  · obtain ⟨j, hj, hjc⟩ := h i m hm c hc
    exact ⟨j, hj, getElem?_concat_of_some hjc⟩
  · obtain ⟨j, hj⟩ := List.mem_iff_getElem?.1 (hn c hc)
    exact ⟨j, (List.getElem?_eq_some_iff.1 hj).1, getElem?_concat_of_some hj⟩

/-- A search leaves children first where the root reaches no cycle. All that is open leads to the
nodes that the search goes on from. -/
theorem childrenFirst_searchFrom (hacyclic : ∀ n, g.Reaches n → ¬ Relation.TransGen g.Step n n)
    (s : Search) (ns : List Nat) (hreaches : ∀ n ∈ ns, n < g.size → g.Reaches n)
    (hopen : ∀ a, s.Open a → ∀ n ∈ ns, n < g.size → Relation.TransGen g.Step a n)
    (hleft : g.ChildrenFirst s.left) : g.ChildrenFirst (g.searchFrom s ns).left := by
  induction s, ns using search_induction (g := g) with
  | done s => rwa [searchFrom_nil]
  | enter s n ns h ihbelow ihafter =>
    have hn := hreaches n List.mem_cons_self h.1
    have hleads : ∀ a, (s.enter n).Open a → a = n ∨ Relation.TransGen g.Step a n := by
      rintro a ⟨hmem, hnot⟩
      rcases List.mem_append.1 hmem with hmem | hmem
      · exact .inr (hopen a ⟨hmem, hnot⟩ n List.mem_cons_self h.1)
      · exact .inl (List.mem_singleton.1 hmem)
    have hbelow : g.ChildrenFirst (g.searchFrom (s.enter n) (g.children n)).left := by
      apply ihbelow
      · intro c hc hsize
        exact hn.step ⟨hc, hsize⟩
      · intro a ha c hc hsize
        rcases hleads a ha with rfl | hpath
        · exact .single ⟨hc, hsize⟩
        · exact hpath.tail ⟨hc, hsize⟩
      · exact hleft
    rw [searchFrom_enter h]
    apply ihafter
    · exact fun m hm => hreaches m (List.mem_cons_of_mem _ hm)
    · rintro a ⟨hmem, hnot⟩ m hm
      rw [Search.left_leave, List.mem_append, List.mem_singleton, not_or] at hnot
      obtain ⟨hmem', hnot'⟩ := open_of_open_searchFrom (g := g) ⟨hmem, hnot.1⟩
      have hold : a ∈ s.entered := by simpa [hnot.2] using hmem'
      exact hopen a ⟨hold, hnot'⟩ m (List.mem_cons_of_mem _ hm)
    · rw [Search.left_leave]
      apply hbelow.concat
      intro c hc
      by_contra hnot
      have hc' := open_of_open_searchFrom (g := g) ⟨mem_searchFrom hc.1 hc.2, hnot⟩
      rcases hleads c hc' with rfl | hpath
      · exact hacyclic c hn (.single hc)
      · exact hacyclic n hn (.head hc hpath)
  | pass s n ns h ih =>
    rw [searchFrom_pass h]
    exact ih (fun m hm => hreaches m (List.mem_cons_of_mem _ hm))
      (fun a ha m hm => hopen a ha m (List.mem_cons_of_mem _ hm)) hleft

theorem childrenFirst_postOrder (hacyclic : ∀ n, g.Reaches n → ¬ Relation.TransGen g.Step n n) :
    g.ChildrenFirst g.postOrder := by
  rw [postOrder_eq_left, search]
  apply childrenFirst_searchFrom hacyclic
  · intro n hn hsize
    rw [List.mem_singleton.1 hn] at hsize ⊢
    exact ⟨hsize, .refl⟩
  · rintro a ⟨hmem, -⟩
    simp at hmem
  · intro i n hn
    simp at hn

/-- A list has the nodes that the root reaches, each of them once, and nothing else. -/
structure ListsReached (g : Graph) (order : List Nat) : Prop where
  nodup : order.Nodup
  mem_iff : ∀ n, n ∈ order ↔ g.Reaches n

theorem listsReached_preOrder (g : Graph) : g.ListsReached g.preOrder :=
  ⟨g.listed_preOrder.nodup, fun _ => mem_preOrder_iff⟩

theorem listsReached_postOrder (g : Graph) : g.ListsReached g.postOrder := by
  have hperm := g.postOrder_perm_preOrder
  refine ⟨hperm.nodup_iff.2 g.listed_preOrder.nodup, fun n => ?_⟩
  rw [hperm.mem_iff, mem_preOrder_iff]

/-- The walks of any graph are the recursive depth-first search from its root; they list what the
root reaches, once, and where it reaches no cycle the post-order walk lists children first. Of an
expression both list all nodes. -/
theorem walks_search_depth_first :
    (∀ g : Graph, g.preOrder = g.search.entered ∧ g.postOrder = g.search.left ∧
      g.ListsReached g.preOrder ∧ g.ListsReached g.postOrder ∧
      ((∀ m, g.size ≤ m → g.children m = []) → ∀ n,
        g.Reaches n ↔ n < g.size ∧ Relation.ReflTransGen g.Edge g.root n) ∧
      ((∀ n, g.Reaches n → ¬ Relation.TransGen g.Step n n) → g.ChildrenFirst g.postOrder)) ∧
    ∀ e : Expression, e.graph.preOrder.Perm (List.range e.size) ∧
      e.graph.postOrder.Perm (List.range e.size) := by
  constructor
  · intro g
    exact ⟨g.preOrder_eq_entered, g.postOrder_eq_left, g.listsReached_preOrder,
      g.listsReached_postOrder, fun h _ => reaches_iff h, childrenFirst_postOrder⟩
  · intro e
    exact ⟨e.preOrder_perm, e.postOrder_perm⟩

/-- A graph with a shared node, a child out of range, and a cycle that the root does not reach. -/
def Sample.diamond : Graph where
  root := 0
  size := 5
  kind? n := if n < 5 then some .conjunction else none
  children n :=
    match n with
    | 0 => [2, 1, 7]
    | 1 => [2]
    | 2 => [3]
    | 4 => [4, 0]
    | _ => []

theorem Sample.walks_diamond :
    Sample.diamond.preOrder = [0, 2, 3, 1] ∧ Sample.diamond.postOrder = [3, 2, 1, 0] := by
  decide +kernel

theorem Sample.acyclic_diamond {n : Nat} (hn : Sample.diamond.Reaches n) :
    ¬ Relation.TransGen Sample.diamond.Step n n := by
  have hstep : ∀ a b, Sample.diamond.Reaches a → Sample.diamond.Step a b →
      [3, 2, 1, 0].idxOf b < [3, 2, 1, 0].idxOf a := by
    rintro a b ha ⟨hedge, hb⟩
    rw [← mem_preOrder_iff, Sample.walks_diamond.1] at ha
    simp only [List.mem_cons, List.not_mem_nil, or_false] at ha
    rcases ha with rfl | rfl | rfl | rfl <;>
      simp [Edge, Sample.diamond] at hedge hb <;> grind
  intro hcycle
  have hdown : ∀ b, Relation.TransGen Sample.diamond.Step n b →
      Sample.diamond.Reaches b ∧ [3, 2, 1, 0].idxOf b < [3, 2, 1, 0].idxOf n := by
    intro b hpath
    induction hpath with
    | single h => exact ⟨hn.step h, hstep _ _ hn h⟩
    | tail _ h ih => exact ⟨ih.1.step h, Nat.lt_trans (hstep _ _ ih.1 h) ih.2⟩
  exact Nat.lt_irrefl _ (hdown n hcycle).2

theorem walks_search_depth_first_diamond :
    (∀ n, Sample.diamond.Reaches n ↔
      n < 5 ∧ Relation.ReflTransGen Sample.diamond.Edge 0 n) ∧
    Sample.diamond.postOrder = [3, 2, 1, 0] ∧ Sample.diamond.ChildrenFirst [3, 2, 1, 0] := by
  have hpost := Sample.walks_diamond.2
  have hleaves : ∀ m, 5 ≤ m → Sample.diamond.children m = [] := by
    intro m hm
    match m, hm with
    | m + 5, _ => rfl
  obtain ⟨-, -, -, -, hreaches, hfirst⟩ := walks_search_depth_first.1 Sample.diamond
  refine ⟨hreaches hleaves, hpost, ?_⟩
  rw [← hpost]
  exact hfirst fun _ => Sample.acyclic_diamond

end Concordance.Graph
