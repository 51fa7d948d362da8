import Concordance.Proofs.Acceptance

/-!
# What the errors of rejected lists say

Each pass of validation is a fold that stops at the first violation. What the
fold has gone over until then is free of violations, and what it has collected
describes just that part: the first pass knows the only root among the nodes
before the one it stops at, the second pass the parents that earlier child
references have given. So the node or the reference at which a pass stops shows
the violation that the error names, and since the second and the third pass are
made only when the first comes to its end, their errors mean that every node is
sound by itself and that there is one root.
-/
namespace Concordance

variable {nodes : Arena Node} {e : StructuralError} {root size n p c i : Nat}

/-- A node is a root. -/
def IsRootNode (nodes : Arena Node) (n : Nat) : Prop :=
  ∃ node, nodes.get? n = some node ∧ node.kind = .root

/-- A node has children out of range, or a number of children that its kind does not admit, or is a
root behind another one. -/
def Violates (nodes : Arena Node) (n : Nat) : Prop :=
  (∃ c, HasChild nodes n c ∧ nodes.size ≤ c) ∨
    (∃ node, nodes.get? n = some node ∧
      node.kind.arity.admits node.children.length = false) ∨
    (IsRootNode nodes n ∧ ∃ m < n, IsRootNode nodes m)

/-- A node is the first one that violates anything by itself. -/
def FirstViolation (nodes : Arena Node) (n : Nat) : Prop :=
  Violates nodes n ∧ ∀ m < n, ¬ Violates nodes m

/-- No node violates anything by itself, and one of them is a root. -/
def SoundNodes (nodes : Arena Node) : Prop :=
  (∀ n, ¬ Violates nodes n) ∧ ∃ root, IsRootNode nodes root

/-- Number of child references of the nodes before a node. -/
def referenceOffset (nodes : Arena Node) (p : Nat) : Nat :=
  ((nodes.toList.take p).flatMap (·.children)).length

/-- A position of the child lists one after another falls into the list of a node and holds a
child. -/
structure ListedAt (nodes : Arena Node) (i p c : Nat) : Prop where
  child : (childReferences nodes)[i]? = some c
  starts : referenceOffset nodes p ≤ i
  ends : i < referenceOffset nodes (p + 1)

/-- What an error says about a list of nodes. -/
def StructuralError.Describes (nodes : Arena Node) : StructuralError → Prop
  | .danglingChild parent child =>
    HasChild nodes parent child ∧ nodes.size ≤ child ∧ FirstViolation nodes parent
  | .arityViolation n kind found =>
    (∃ node, nodes.get? n = some node ∧ node.kind = kind ∧ node.children.length = found ∧
      kind.arity.admits found = false) ∧ FirstViolation nodes n
  | .multipleRoots first second =>
    first < second ∧ IsRootNode nodes first ∧ IsRootNode nodes second ∧
      FirstViolation nodes second
  | .missingRoot => (∀ n, ¬ IsRootNode nodes n) ∧ ∀ n, ¬ Violates nodes n
  | .rootHasParent parent =>
    (∃ root, IsRootNode nodes root ∧ HasChild nodes parent root) ∧ SoundNodes nodes
  | .sharedChild child first second =>
    (∃ i j, i < j ∧ ListedAt nodes i first child ∧ ListedAt nodes j second child) ∧
      SoundNodes nodes
  | .orphanNode n =>
    (n < nodes.size ∧ ¬ IsRootNode nodes n ∧ n ∉ childReferences nodes) ∧ SoundNodes nodes
  | .cycleDetected _ => SoundNodes nodes

namespace Validation

theorem not_violates_of_nodeOk
    (hok : ∀ node, nodes.get? n = some node → NodeOk nodes.size node)
    (hroot : ∀ m < n, IsRootNode nodes m → ¬ IsRootNode nodes n) : ¬ Violates nodes n := by
  rintro (⟨c, ⟨node, hn, hc⟩, hout⟩ | ⟨node, hn, hadmits⟩ | ⟨hn, m, hm, hroot'⟩)
  · exact absurd ((hok node hn).1 c hc) (Nat.not_lt.2 hout)
  · rw [(hok node hn).2] at hadmits
    cases hadmits
  · exact hroot m hm hroot' hn

/-- A fold that fails has gone over a part of the list without failing. -/
theorem foldlM_eq_error {α β ε : Type} {f : β → α → Except ε β} {xs : List α} {start : β} {e : ε}
    (h : xs.foldlM f start = .error e) : ∃ before x after mid, xs = before ++ x :: after ∧
      before.foldlM f start = .ok mid ∧ f mid x = .error e := by
  induction xs generalizing start with
  | nil => cases h
  | cons x xs ih =>
    rw [List.foldlM_cons] at h
    cases hstep : f start x with
    | error e' =>
      rw [hstep] at h
      obtain rfl : e' = e := Except.error.inj h
      exact ⟨[], x, xs, start, rfl, rfl, hstep⟩
    | ok next =>
      rw [hstep] at h
      obtain ⟨before, y, after, mid, rfl, hbefore, hy⟩ := ih h
      refine ⟨x :: before, y, after, mid, rfl, ?_, hy⟩
      rw [List.foldlM_cons, hstep]
      exact hbefore

theorem checkNode_eq_error {seen : Option Nat} {node : Node}
    (h : checkNode size seen n node = .error e) :
    (∃ c ∈ node.children, size ≤ c ∧ e = .danglingChild n c) ∨
      (node.kind.arity.admits node.children.length = false ∧
        e = .arityViolation n node.kind node.children.length) ∨
      (node.kind = .root ∧ ∃ first, seen = some first ∧ e = .multipleRoots first n) := by
  unfold checkNode at h
  split at h
  · rename_i c hfind
    have hc := List.find?_some hfind
    exact .inl ⟨c, List.mem_of_find?_eq_some hfind, by simpa using hc, (Except.error.inj h).symm⟩
  · split at h
    · split at h
      · rename_i hkind
        split at h
        · cases h
        · exact .inr (.inr ⟨hkind, _, rfl, (Except.error.inj h).symm⟩)
      · cases h
    · rename_i hadmits
      exact .inr (.inl ⟨by simpa using hadmits, (Except.error.inj h).symm⟩)

theorem entries_pairwise (nodes : Arena Node) : nodes.entries.Pairwise fun a b => a.1 < b.1 := by
  apply List.pairwise_map.1
  rw [Arena.map_fst_entries]
  exact List.pairwise_lt_range

/-- The entries before a node are those of the nodes with a smaller number. -/
theorem mem_before_iff {node other : Node} {before after : List (Nat × Node)} {m : Nat}
    (h : nodes.entries = before ++ (n, node) :: after) :
    (m, other) ∈ before ↔ m < n ∧ nodes.get? m = some other := by
  have hpairwise := entries_pairwise nodes
  rw [h, List.pairwise_append, List.pairwise_cons] at hpairwise
  obtain ⟨-, ⟨hafter, -⟩, hbefore⟩ := hpairwise
  rw [← mem_entries, h, List.mem_append, List.mem_cons]
  constructor
  · intro hmem
    exact ⟨hbefore _ hmem _ List.mem_cons_self, .inl hmem⟩
  · rintro ⟨hm, hmem | heq | hmem⟩
    · exact hmem
    · obtain ⟨rfl, -⟩ := Prod.mk.inj heq
      omega
    · have := hafter _ hmem
      omega

/-- The first pass stops at the first violation, or it finds none and no root. -/
theorem findRoot_eq_error (h : findRoot nodes = .error e) :
    (∃ n node seen, nodes.get? n = some node ∧ checkNode nodes.size seen n node = .error e ∧
      (∀ m < n, ¬ Violates nodes m) ∧
      ∀ first, seen = some first → first < n ∧ IsRootNode nodes first) ∨
    (e = .missingRoot ∧ (∀ n, ¬ IsRootNode nodes n) ∧ ∀ n, ¬ Violates nodes n) := by
  unfold findRoot at h
  split at h
  · rename_i e' hfold
    obtain rfl : e' = e := Except.error.inj h
    obtain ⟨before, ⟨n, node⟩, after, seen, hentries, hbefore, hnode⟩ := foldlM_eq_error hfold
    obtain ⟨hok, -, hroots, horigin⟩ := foldlM_checkNode hbefore
    have hget : nodes.get? n = some node := by
      apply mem_entries.1
      rw [hentries]
      simp
    have hseen : ∀ m < n, IsRootNode nodes m → seen = some m := by
      rintro m hm ⟨other, hother, hkind⟩
      exact hroots (m, other) ((mem_before_iff hentries).2 ⟨hm, hother⟩) hkind
    refine .inl ⟨n, node, seen, hget, hnode, fun m hm => not_violates_of_nodeOk ?_ ?_, ?_⟩
    · intro other hother
      exact hok (m, other) ((mem_before_iff hentries).2 ⟨hm, hother⟩)
    · intro k hk hroot hroot'
      have hkm := (hseen k (by omega) hroot).symm.trans (hseen m hm hroot')
      have := Option.some.inj hkm
      omega
    · intro first hfirst
      obtain ⟨other, hmem, hkind⟩ := (horigin first hfirst).resolve_left (by simp)
      obtain ⟨hlt, hother⟩ := (mem_before_iff hentries).1 hmem
      exact ⟨hlt, other, hother, hkind⟩
  · rename_i hfold
    obtain ⟨hok, -, hroots, -⟩ := foldlM_checkNode hfold
    have hnone : ∀ n, ¬ IsRootNode nodes n := by
      rintro n ⟨node, hn, hkind⟩
      have := hroots (n, node) (mem_entries.2 hn) hkind
      simp at this
    refine .inr ⟨(Except.error.inj h).symm, hnone, fun n => not_violates_of_nodeOk ?_ ?_⟩
    · intro node hn
      exact hok (n, node) (mem_entries.2 hn)
    · exact fun m _ hroot => absurd hroot (hnone m)
  · cases h

theorem describes_of_findRoot (h : findRoot nodes = .error e) : e.Describes nodes := by
  rcases findRoot_eq_error h with ⟨n, node, seen, hget, hstop, hbefore, hseen⟩ | ⟨rfl, hnone, hok⟩
  · rcases checkNode_eq_error hstop with
      ⟨c, hc, hout, rfl⟩ | ⟨hadmits, rfl⟩ | ⟨hkind, first, hfirst, rfl⟩
    · exact ⟨⟨node, hget, hc⟩, hout, .inl ⟨c, ⟨node, hget, hc⟩, hout⟩, hbefore⟩
    · exact ⟨⟨node, hget, rfl, rfl, hadmits⟩, .inr (.inl ⟨node, hget, hadmits⟩), hbefore⟩
    · obtain ⟨hlt, hroot⟩ := hseen first hfirst
      have hroot' : IsRootNode nodes n := ⟨node, hget, hkind⟩
      exact ⟨hlt, hroot, hroot', .inr (.inr ⟨hroot', first, hlt, hroot⟩), hbefore⟩
  · exact ⟨hnone, hok⟩

theorem isRootNode_iff (h : findRoot nodes = .ok root) : IsRootNode nodes n ↔ n = root := by
  obtain ⟨-, hroot, hlt⟩ := findRoot_eq_ok h
  constructor
  · rintro ⟨node, hn, hkind⟩
    exact (hroot n node hn).1 hkind
  · rintro rfl
    obtain ⟨node, hn⟩ := exists_get? hlt
    exact ⟨node, hn, (hroot n node hn).2 rfl⟩

theorem soundNodes_of_findRoot (h : findRoot nodes = .ok root) : SoundNodes nodes := by
  refine ⟨fun n => not_violates_of_nodeOk ((findRoot_eq_ok h).1 n) ?_, root,
    (isRootNode_iff h).2 rfl⟩
  intro m hm hroot hroot'
  have hm' := (isRootNode_iff h).1 hroot
  have hn' := (isRootNode_iff h).1 hroot'
  omega

/-- An element of flattened lists is in one of them, behind all that the earlier ones hold. -/
theorem exists_of_getElem?_flatMap {α β : Type} {f : α → List β} {xs : List α} {y : β}
    (h : (xs.flatMap f)[i]? = some y) : ∃ k x j, xs[k]? = some x ∧ (f x)[j]? = some y ∧
      i = ((xs.take k).flatMap f).length + j := by
  induction xs generalizing i with
  | nil => simp at h
  | cons x xs ih =>
    rw [List.flatMap_cons] at h
    by_cases hi : i < (f x).length
    · rw [List.getElem?_append_left hi] at h
      exact ⟨0, x, i, rfl, h, by simp⟩
    · rw [List.getElem?_append_right (Nat.not_lt.1 hi)] at h
      obtain ⟨k, z, j, hz, hy, heq⟩ := ih h
      refine ⟨k + 1, z, j, by simpa using hz, hy, ?_⟩
      rw [List.take_succ_cons, List.flatMap_cons, List.length_append]
      omega

theorem referenceOffset_succ {node : Node} (h : nodes.get? p = some node) :
    referenceOffset nodes (p + 1) = referenceOffset nodes p + node.children.length := by
  rw [Arena.get?_eq] at h
  rw [referenceOffset, List.take_add_one, h, List.flatMap_append, List.length_append,
    referenceOffset]
  simp

theorem length_flatMap_entries (nodes : Arena Node) (k : Nat) :
    ((nodes.entries.take k).flatMap fun entry => entry.2.children.map (entry.1, ·)).length =
      referenceOffset nodes k := by
  rw [referenceOffset, ← Arena.map_snd_entries, ← List.map_take, List.flatMap_map,
    List.length_flatMap, List.length_flatMap]
  simp

/-- The child references are in the order of the child lists one after another. -/
theorem listedAt_of_references (h : (references nodes)[i]? = some (p, c)) :
    ListedAt nodes i p c := by
  have hchild : (childReferences nodes)[i]? = some c := by
    rw [← map_snd_references, List.getElem?_map, h]
    rfl
  obtain ⟨k, ⟨n, node⟩, j, hentry, hj, hi⟩ := exists_of_getElem?_flatMap h
  rw [length_flatMap_entries] at hi
  rw [List.getElem?_map] at hj
  obtain ⟨d, hd, heq⟩ := Option.map_eq_some_iff.1 hj
  obtain ⟨rfl, rfl⟩ := Prod.mk.inj heq
  have hk : k = n := by
    rw [entries_eq, List.getElem?_map, List.getElem?_zipIdx] at hentry
    cases hget : nodes.toList[k]? <;> simp [hget] at hentry
    exact hentry.1
  subst hk
  have hnode := mem_entries.1 (List.mem_of_getElem? hentry)
  have hlt := (List.getElem?_eq_some_iff.1 hd).1
  have hends := referenceOffset_succ hnode
  dsimp only at hlt ⊢
  exact ⟨hchild, by omega, by omega⟩

theorem adopt_eq_error {parents : Parents} (h : adopt root parents (p, c) = .error e) :
    (c = root ∧ e = .rootHasParent p) ∨ (c = p ∧ e = .cycleDetected p) ∨
      ∃ first, parents[c]? = some (some first) ∧ e = .sharedChild c first p := by
  unfold adopt at h
  dsimp only at h
  split at h
  · rename_i hroot
    exact .inl ⟨hroot, (Except.error.inj h).symm⟩
  · split at h
    · rename_i hself
      exact .inr (.inl ⟨hself, (Except.error.inj h).symm⟩)
    · split at h
      · rename_i first hfirst
        exact .inr (.inr ⟨first, hfirst, (Except.error.inj h).symm⟩)
      · cases h

/-- The second pass stops at a reference to the root, to the node itself, or to a child that an
earlier reference leads to. -/
theorem findParents_eq_error
    (hnodes : ∀ n node, nodes.get? n = some node → NodeOk nodes.size node)
    (h : findParents nodes root = .error e) :
    ∃ (j p c : Nat), (references nodes)[j]? = some (p, c) ∧
      ((c = root ∧ e = .rootHasParent p) ∨ (c = p ∧ e = .cycleDetected p) ∨
        ∃ (i first : Nat), i < j ∧ (references nodes)[i]? = some (first, c) ∧
          e = .sharedChild c first p) := by
  obtain ⟨before, ⟨p, c⟩, after, parents, hsplit, hbefore, hstop⟩ := foldlM_eq_error h
  have hlt : ∀ r ∈ before, r.2 < (Array.replicate nodes.size (none : Option Nat)).size := by
    rintro ⟨q, d⟩ hr
    obtain ⟨node, hget, hd⟩ := mem_references.1
      (show (q, d) ∈ references nodes by rw [hsplit]; exact List.mem_append_left _ hr)
    rw [Array.size_replicate]
    exact (hnodes q node hget).1 d hd
  obtain ⟨-, -, hadopted, hkept⟩ := foldlM_adopt hbefore hlt
  refine ⟨before.length, p, c, by rw [hsplit]; simp, ?_⟩
  refine (adopt_eq_error hstop).imp_right (Or.imp_right ?_)
  rintro ⟨first, hfirst, rfl⟩
  -- the parent that is noted comes from an earlier reference
  have hmem : c ∈ before.map Prod.snd := by
    by_contra hnew
    rw [hkept c hnew, Array.getElem?_replicate] at hfirst
    split at hfirst <;> simp at hfirst
  obtain ⟨⟨q, d⟩, hr, rfl⟩ := List.mem_map.1 hmem
  have hq := (hadopted _ hr).2
  rw [hfirst] at hq
  obtain rfl : first = q := Option.some.inj hq
  obtain ⟨i, hi, hget⟩ := List.mem_iff_getElem.1 hr
  refine ⟨i, first, hi, ?_, rfl⟩
  rw [hsplit, List.getElem?_append_left hi, List.getElem?_eq_getElem hi, hget]

theorem checkConnected_eq_error {parents : Parents}
    (h : checkConnected nodes root parents = .error e) :
    (∃ n < nodes.size, n ≠ root ∧ parents[n]?.getD none = none ∧ e = .orphanNode n) ∨
      ((∀ n < nodes.size, n ≠ root → parents[n]?.getD none ≠ none) ∧
        ∃ n < nodes.size, n ∉ (graph nodes root).preOrder ∧
          (∀ m < n, m ∈ (graph nodes root).preOrder) ∧ e = .cycleDetected n) := by
  unfold checkConnected Arena.indices at h
  split at h
  · rename_i n hfind
    obtain ⟨hn, hrange, -⟩ := List.find?_range_eq_some.1 hfind
    rw [Bool.and_eq_true, bne_iff_ne, Option.isNone_iff_eq_none] at hn
    exact .inl ⟨n, List.mem_range.1 hrange, hn.1, hn.2, (Except.error.inj h).symm⟩
  · rename_i hparents
    dsimp only at h
    split at h
    · rename_i n hfind
      obtain ⟨hn, hrange, hbefore⟩ := List.find?_range_eq_some.1 hfind
      refine .inr ⟨fun m hm hroot => ?_, n, List.mem_range.1 hrange, by simpa using hn, ?_,
        (Except.error.inj h).symm⟩
      · have := List.find?_eq_none.1 hparents m (List.mem_range.2 hm)
        simpa [hroot] using this
      · intro m hm
        simpa using hbefore m hm
    · cases h

theorem bind_eq_error {α β ε : Type} {x : Except ε α} {f : α → Except ε β} {e : ε}
    (h : x >>= f = .error e) : x = .error e ∨ ∃ a, x = .ok a ∧ f a = .error e := by
  cases x with
  | error e' => exact .inl (congrArg _ (Except.error.inj h))
  | ok a => exact .inr ⟨a, rfl, h⟩

theorem validate_eq_error (h : validate nodes = .error e) : findRoot nodes = .error e ∨
    ∃ root, findRoot nodes = .ok root ∧ (findParents nodes root = .error e ∨
      ∃ parents, findParents nodes root = .ok parents ∧
        checkConnected nodes root parents = .error e) := by
  refine (bind_eq_error h).imp_right ?_
  rintro ⟨root, hroot, h⟩
  refine ⟨root, hroot, (bind_eq_error h).imp_right ?_⟩
  rintro ⟨parents, hparents, h⟩
  rcases bind_eq_error h with hconnected | ⟨u, -, h⟩
  · exact ⟨parents, hparents, hconnected⟩
  · cases h

end Validation

open Validation

theorem Expression.ofNodes_eq_error_iff : ofNodes nodes = .error e ↔ validate nodes = .error e := by
  unfold ofNodes
  split
  · rename_i e' h
    rw [h]
    exact ⟨fun h => congrArg _ (Except.error.inj h), fun h => congrArg _ (Except.error.inj h)⟩
  · rename_i hok
    constructor
    · intro h
      cases h
    · intro h
      rw [hok] at h
      cases h

/-- The error of a rejected list describes a violation that the list shows. -/
theorem errors_describe_violations (nodes : Arena Node) (e : StructuralError)
    (h : Expression.ofNodes nodes = .error e) : e.Describes nodes := by
  rcases validate_eq_error (Expression.ofNodes_eq_error_iff.1 h) with
    hroot | ⟨root, hroot, hparents | ⟨parents, hparents, hconnected⟩⟩
  · exact describes_of_findRoot hroot
  · have hsound := soundNodes_of_findRoot hroot
    obtain ⟨j, p, c, hj, ⟨rfl, rfl⟩ | ⟨rfl, rfl⟩ | ⟨i, first, hij, hi, rfl⟩⟩ :=
      findParents_eq_error (findRoot_eq_ok hroot).1 hparents
    · exact ⟨⟨c, (isRootNode_iff hroot).2 rfl, hasChild_iff.2 (List.mem_of_getElem? hj)⟩, hsound⟩
    · exact hsound
    · exact ⟨⟨i, j, hij, listedAt_of_references hi, listedAt_of_references hj⟩, hsound⟩
  · have hsound := soundNodes_of_findRoot hroot
    have hparent := (findParents_eq_ok (findRoot_eq_ok hroot).1 hparents).2.2
    rcases checkConnected_eq_error hconnected with
      ⟨n, hn, hne, hnone, rfl⟩ | ⟨-, n, -, -, -, rfl⟩
    · refine ⟨⟨hn, mt (isRootNode_iff hroot).1 hne, fun hmem => ?_⟩, hsound⟩
      obtain ⟨p, hp⟩ := mem_childReferences.1 hmem
      rw [(hparent p n).2 (hasChild_iff.1 hp)] at hnone
      cases hnone
    · exact hsound

/-- A conjunction that lists its child twice, beside a cycle. -/
def Sample.repeatedChild : Arena Node :=
  .ofList [⟨.concept 1, []⟩, ⟨.conjunction, [0, 0]⟩, ⟨.conjunction, [3]⟩, ⟨.conjunction, [2]⟩,
    ⟨.root, [1]⟩]

theorem errors_describe_violations_repeatedChild :
    Expression.ofNodes Sample.repeatedChild = .error (.sharedChild 0 1 1) ∧
      (StructuralError.sharedChild 0 1 1).Describes Sample.repeatedChild := by
  have herror := Expression.ofNodes_eq_error_iff.2
    (show Validation.validate Sample.repeatedChild = .error (.sharedChild 0 1 1) by decide +kernel)
  exact ⟨herror, errors_describe_violations _ _ herror⟩

end Concordance
