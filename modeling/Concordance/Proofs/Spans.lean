import Concordance.Proofs.Search

/-!
# Spans of pre-order walks

Between entering a node and leaving it a search enters only what the node leads
to, and by then it has entered all of its children. So behind every node of a
pre-order walk there is a span of nodes below it, up to whose end all of its
children are listed: what comes after the node without being led to by it comes
after its children too.
-/
namespace Concordance.Graph

variable {g : Graph} {a b c n : Nat} {ns : List Nat}

/-- From one place of a list to another there is only what a node leads to, and up to there are all
its children in range. -/
structure Span (g : Graph) (order : List Nat) (a i e : Nat) : Prop where
  le_length : e ≤ order.length
  path : ∀ (j m : Nat), i ≤ j → j < e → order[j]? = some m → Relation.ReflTransGen g.Step a m
  child : ∀ c, g.Step a c → ∃ j < e, order[j]? = some c

theorem Span.append {i e : Nat} (h : g.Span order a i e) (xs : List Nat) :
    g.Span (order ++ xs) a i e := by
  have hold : ∀ j < e, (order ++ xs)[j]? = order[j]? := fun j hj =>
    List.getElem?_append_left (Nat.lt_of_lt_of_le hj h.le_length)
  refine ⟨?_, ?_, ?_⟩
  · rw [List.length_append]
    exact Nat.le_add_right_of_le h.le_length
  · intro j m hij hje hm
    rw [hold j hje] at hm
    exact h.path j m hij hje hm
  · intro c hc
    obtain ⟨j, hj, hjc⟩ := h.child c hc
    exact ⟨j, hj, by rw [hold j hj, hjc]⟩

/-- What was entered up to the call for the children of a node comes first in the end. -/
theorem exists_append_enter {s : Search} (h : n < g.size ∧ n ∉ s.entered) (ns : List Nat) :
    ∃ xs, (g.searchFrom s (n :: ns)).entered =
      (g.searchFrom (s.enter n) (g.children n)).entered ++ xs := by
  obtain ⟨xs, -, hafter, -, -⟩ := exists_perm_searchFrom (g := g)
    ((g.searchFrom (s.enter n) (g.children n)).leave n) ns
  exact ⟨xs, by rw [searchFrom_enter h, hafter, Search.entered_leave]⟩

/-- A new entry is the first node of the list, or it is made in the call for its children, or in the
call for the rest of the list. -/
theorem getElem?_entered_cases {s : Search} {i : Nat} (h : n < g.size ∧ n ∉ s.entered)
    (hi : s.entered.length ≤ i) (ha : (g.searchFrom s (n :: ns)).entered[i]? = some a) :
    (i = s.entered.length ∧ a = n) ∨
      ((s.enter n).entered.length ≤ i ∧
        (g.searchFrom (s.enter n) (g.children n)).entered[i]? = some a) ∨
      ((g.searchFrom (s.enter n) (g.children n)).entered.length ≤ i ∧
        (g.searchFrom ((g.searchFrom (s.enter n) (g.children n)).leave n) ns).entered[i]? =
          some a) := by
  by_cases hlt : i < (g.searchFrom (s.enter n) (g.children n)).entered.length
  · obtain ⟨zs, hafter⟩ := exists_append_enter h ns
    rw [hafter, List.getElem?_append_left hlt] at ha
    obtain ⟨xs, -, hbelow, -, -⟩ := exists_perm_searchFrom (g := g) (s.enter n) (g.children n)
    rcases Nat.eq_or_lt_of_le hi with rfl | hi
    · simp only [hbelow, Search.entered_enter, List.append_assoc, List.singleton_append,
        List.getElem?_append_right (Nat.le_refl _), Nat.sub_self, List.getElem?_cons_zero] at ha
      exact .inl ⟨rfl, (Option.some.inj ha).symm⟩
    · refine .inr (.inl ⟨?_, ha⟩)
      rw [Search.entered_enter, List.length_append, List.length_singleton]
      omega
  · rw [searchFrom_enter h] at ha
    exact .inr (.inr ⟨Nat.not_lt.1 hlt, ha⟩)

/-- What a search newly enters is led to by a node that it goes on from. -/
theorem exists_path_searchFrom (s : Search) (ns : List Nat) : ∀ (i a : Nat),
    s.entered.length ≤ i → (g.searchFrom s ns).entered[i]? = some a →
      ∃ c ∈ ns, c < g.size ∧ Relation.ReflTransGen g.Step c a := by
  induction s, ns using search_induction (g := g) with
  | done s =>
    intro i a hi ha
    rw [searchFrom_nil, List.getElem?_eq_none hi] at ha
    cases ha
  | enter s n ns h ihbelow ihafter =>
    intro i a hi ha
    rcases getElem?_entered_cases h hi ha with ⟨-, rfl⟩ | ⟨hi, ha⟩ | ⟨hi, ha⟩
    · exact ⟨a, List.mem_cons_self, h.1, .refl⟩
    · obtain ⟨c, hc, hsize, hpath⟩ := ihbelow i a hi ha
      exact ⟨n, List.mem_cons_self, h.1, .head ⟨hc, hsize⟩ hpath⟩
    · obtain ⟨c, hc, hsize, hpath⟩ := ihafter i a hi ha
      exact ⟨c, List.mem_cons_of_mem _ hc, hsize, hpath⟩
  | pass s n ns h ih =>
    intro i a hi ha
    rw [searchFrom_pass h] at ha
    obtain ⟨c, hc, hsize, hpath⟩ := ih i a hi ha
    exact ⟨c, List.mem_cons_of_mem _ hc, hsize, hpath⟩

/-- The call for the children of a node goes through all that lies below it. -/
theorem span_enter {s : Search} (h : n < g.size ∧ n ∉ s.entered) :
    g.Span (g.searchFrom (s.enter n) (g.children n)).entered n s.entered.length
      (g.searchFrom (s.enter n) (g.children n)).entered.length := by
  have honly : (g.searchFrom s [n]).entered =
      (g.searchFrom (s.enter n) (g.children n)).entered := by
    rw [searchFrom_enter h, searchFrom_nil, Search.entered_leave]
  refine ⟨Nat.le_refl _, ?_, ?_⟩
  · intro j m hj _ hm
    obtain ⟨c, hc, -, hpath⟩ := exists_path_searchFrom s [n] j m hj (by rw [honly, hm])
    rwa [List.mem_singleton.1 hc] at hpath
  · intro c hc
    obtain ⟨j, hj⟩ := List.mem_iff_getElem?.1 (mem_searchFrom (s := s.enter n) hc.1 hc.2)
    exact ⟨j, (List.getElem?_eq_some_iff.1 hj).1, hj⟩

/-- Behind every new entry of a search is the span of what lies below it. -/
theorem exists_span_searchFrom (s : Search) (ns : List Nat) : ∀ (i a : Nat),
    s.entered.length ≤ i → (g.searchFrom s ns).entered[i]? = some a →
      ∃ e, g.Span (g.searchFrom s ns).entered a i e := by
  induction s, ns using search_induction (g := g) with
  | done s =>
    intro i a hi ha
    rw [searchFrom_nil, List.getElem?_eq_none hi] at ha
    cases ha
  | enter s n ns h ihbelow ihafter =>
    intro i a hi ha
    obtain ⟨xs, hxs⟩ := exists_append_enter h ns
    rcases getElem?_entered_cases h hi ha with ⟨rfl, rfl⟩ | ⟨hi, ha⟩ | ⟨hi, ha⟩
    · rw [hxs]
      exact ⟨_, (span_enter h).append xs⟩
    · obtain ⟨e, hspan⟩ := ihbelow i a hi ha
      rw [hxs]
      exact ⟨e, hspan.append xs⟩
    · rw [searchFrom_enter h]
      exact ihafter i a hi ha
  | pass s n ns h ih =>
    intro i a hi ha
    rw [searchFrom_pass h] at ha ⊢
    exact ih i a hi ha

/-- The pre-order walk lists one node before another. -/
def Precedes (g : Graph) (a b : Nat) : Prop :=
  g.preOrder.idxOf a < g.preOrder.idxOf b

/-- A pre-order walk lists a node that it lists, the root apart, after one of its parents. -/
theorem exists_precedes (hn : n ∈ g.preOrder) (hroot : n ≠ g.root) :
    ∃ a, g.Edge a n ∧ g.Precedes a n := by
  obtain ⟨j, a, hj, ha, hedge⟩ := (g.listed_preOrder.parentsFirst (g.preOrder.idxOf n) n
    (List.getElem?_idxOf hn)).resolve_left hroot
  refine ⟨a, hedge, ?_⟩
  obtain ⟨hlt, rfl⟩ := List.getElem?_eq_some_iff.1 ha
  rwa [Precedes, g.listed_preOrder.nodup.idxOf_getElem j hlt]

/-- The children of a node come before whatever is listed after the node and is not led to by it. -/
theorem Precedes.child_of_not_path (h : g.Precedes a b) (hc : g.Step a c)
    (hpath : ¬ Relation.ReflTransGen g.Step a b) : g.Precedes c b := by
  have ha : a ∈ g.preOrder :=
    List.idxOf_lt_length_iff.1 (Nat.lt_of_lt_of_le h List.idxOf_le_length)
  obtain ⟨e, hspan⟩ := exists_span_searchFrom (g := g) {} [g.root] (g.preOrder.idxOf a) a
    (Nat.zero_le _) (by rw [← search, ← preOrder_eq_entered]; exact List.getElem?_idxOf ha)
  rw [← search, ← preOrder_eq_entered] at hspan
  have hb : e ≤ g.preOrder.idxOf b := by
    by_contra hlt
    have hlt := Nat.not_le.1 hlt
    have hmem : b ∈ g.preOrder :=
      List.idxOf_lt_length_iff.1 (Nat.lt_of_lt_of_le hlt hspan.le_length)
    exact hpath (hspan.path _ b (Nat.le_of_lt h) hlt (List.getElem?_idxOf hmem))
  obtain ⟨j, hj, hjc⟩ := hspan.child c hc
  have hfirst : g.preOrder.idxOf c ≤ j := by
    obtain ⟨hlt, rfl⟩ := List.getElem?_eq_some_iff.1 hjc
    rw [g.listed_preOrder.nodup.idxOf_getElem j hlt]
  exact Nat.lt_of_le_of_lt hfirst (Nat.lt_of_lt_of_le hj hb)

end Concordance.Graph
