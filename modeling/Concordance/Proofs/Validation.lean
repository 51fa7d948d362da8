import Concordance.Expression

/-!
# What validation establishes

Validation goes over the nodes three times. Each pass is a fold that stops at
the first violation, so that a pass that comes to its end has met none: every
node has children in range and as many as its kind admits, one node is the root,
every other node is a child of exactly one node, and the root reaches all nodes.
-/
namespace Concordance

namespace Validation

variable {nodes : Arena Node} {root : Nat} {parents : Parents}

theorem entries_eq (nodes : Arena Node) :
    nodes.entries = nodes.toList.zipIdx.map fun entry => (entry.2, entry.1) := rfl

theorem mem_entries {n : Nat} {node : Node} :
    (n, node) ∈ nodes.entries ↔ nodes.get? n = some node := by
  rw [entries_eq, Arena.get?_eq, ← List.mk_mem_zipIdx_iff_getElem?, List.mem_map]
  constructor
  · rintro ⟨entry, hentry, heq⟩
    obtain ⟨rfl, rfl⟩ := Prod.mk.inj heq
    exact hentry
  · intro h
    exact ⟨(node, n), h, rfl⟩

theorem lt_size_of_get? {n : Nat} {node : Node} (h : nodes.get? n = some node) :
    n < nodes.size := by
  rw [Arena.get?_eq] at h
  obtain ⟨hn, _⟩ := List.getElem?_eq_some_iff.1 h
  rwa [Arena.length_toList] at hn

theorem exists_get? {n : Nat} (h : n < nodes.size) : ∃ node, nodes.get? n = some node := by
  rw [← Arena.length_toList] at h
  exact ⟨_, by rw [Arena.get?_eq]; exact List.getElem?_eq_getElem h⟩

/-- What is checked of a node by itself. -/
def NodeOk (size : Nat) (node : Node) : Prop :=
  (∀ child ∈ node.children, child < size) ∧ node.kind.arity.admits node.children.length = true

theorem checkNode_eq_ok {size n : Nat} {seen next : Option Nat} {node : Node}
    (h : checkNode size seen n node = .ok next) :
    NodeOk size node ∧
      (if node.kind = .root then seen = none ∧ next = some n else next = seen) := by
  unfold checkNode at h
  split at h
  · simp at h
  · rename_i hrange
    have hlt : ∀ child ∈ node.children, child < size := by
      intro child hc
      have := List.find?_eq_none.1 hrange child hc
      simpa using this
    split at h
    · rename_i harity
      refine ⟨⟨hlt, harity⟩, ?_⟩
      split at h
      · rename_i hroot
        rw [if_pos hroot]
        split at h
        · exact ⟨rfl, (Except.ok.inj h).symm⟩
        · simp at h
      · rename_i hroot
        rw [if_neg hroot]
        exact (Except.ok.inj h).symm
    · simp at h

/-- A fold over checked nodes remembers the only root among them and one that was seen before. -/
theorem foldlM_checkNode {size : Nat} {entries : List (Nat × Node)} {seen last : Option Nat}
    (h : entries.foldlM (fun seen entry => checkNode size seen entry.1 entry.2) seen = .ok last) :
    (∀ entry ∈ entries, NodeOk size entry.2) ∧
      (∀ n, seen = some n → last = some n) ∧
      (∀ entry ∈ entries, entry.2.kind = .root → last = some entry.1) ∧
      (∀ n, last = some n → seen = some n ∨ ∃ node, (n, node) ∈ entries ∧ node.kind = .root) := by
  induction entries generalizing seen with
  | nil =>
    have hlast : seen = last := Except.ok.inj h
    subst hlast
    simp
  | cons entry entries ih =>
    rw [List.foldlM_cons] at h
    cases hstep : checkNode size seen entry.1 entry.2 with
    | error e =>
      rw [hstep] at h
      exact nomatch h
    | ok next =>
      rw [hstep] at h
      obtain ⟨hok, hkept, hroots, horigin⟩ := ih h
      obtain ⟨hentry, hnext⟩ := checkNode_eq_ok hstep
      refine ⟨?_, ?_, ?_, ?_⟩
      · intro other hother
        rcases List.mem_cons.1 hother with rfl | hother
        · exact hentry
        · exact hok other hother
      · intro n hn
        split at hnext
        · rw [hnext.1] at hn
          simp at hn
        · exact hkept n (by rw [hnext, hn])
      · intro other hother hkind
        rcases List.mem_cons.1 hother with rfl | hother
        · rw [if_pos hkind] at hnext
          exact hkept _ hnext.2
        · exact hroots other hother hkind
      · intro n hn
        rcases horigin n hn with hseen | ⟨node, hmem, hkind⟩
        · by_cases hroot : entry.2.kind = .root
          · rw [if_pos hroot] at hnext
            have hn : n = entry.1 := Option.some.inj (hseen.symm.trans hnext.2)
            exact .inr ⟨entry.2, by rw [hn]; exact List.mem_cons_self, hroot⟩
          · rw [if_neg hroot] at hnext
            exact .inl (by rw [← hnext, hseen])
        · exact .inr ⟨node, List.mem_cons_of_mem _ hmem, hkind⟩

theorem findRoot_eq_ok (h : findRoot nodes = .ok root) :
    (∀ n node, nodes.get? n = some node → NodeOk nodes.size node) ∧
      (∀ n node, nodes.get? n = some node → (node.kind = .root ↔ n = root)) ∧
      root < nodes.size := by
  unfold findRoot at h
  split at h
  · simp at h
  · simp at h
  · rename_i found hfold
    obtain rfl : found = root := Except.ok.inj h
    obtain ⟨hok, -, hroots, horigin⟩ := foldlM_checkNode hfold
    obtain ⟨node, hmem, hkind⟩ := (horigin found rfl).resolve_left (by simp)
    have hget := mem_entries.1 hmem
    refine ⟨fun n node hn => hok (n, node) (mem_entries.2 hn), fun n other hn => ?_,
      lt_size_of_get? hget⟩
    constructor
    · intro hother
      exact (Option.some.inj (hroots (n, other) (mem_entries.2 hn) hother)).symm
    · rintro rfl
      rw [hget] at hn
      rwa [← Option.some.inj hn]

theorem adopt_eq_ok {parents next : Parents} {reference : Nat × Nat}
    (h : adopt root parents reference = .ok next) :
    reference.2 ≠ root ∧ parents[reference.2]?.getD none = none ∧
      next = parents.setIfInBounds reference.2 (some reference.1) := by
  obtain ⟨parent, child⟩ := reference
  unfold adopt at h
  dsimp only at h ⊢
  split at h
  · simp at h
  · rename_i hroot
    split at h
    · simp at h
    · split at h
      · simp at h
      · rename_i hfree
        refine ⟨hroot, ?_, (Except.ok.inj h).symm⟩
        cases hp : parents[child]? with
        | none => rfl
        | some found =>
          cases found with
          | none => rfl
          | some first => exact absurd hp (hfree first)

/-- A fold that adopts children gives each of them its parent, and keeps all other entries. -/
theorem foldlM_adopt {references : List (Nat × Nat)} {first last : Parents}
    (h : references.foldlM (adopt root) first = .ok last)
    (hlt : ∀ r ∈ references, r.2 < first.size) :
    (∀ r ∈ references, r.2 ≠ root) ∧ (references.map Prod.snd).Nodup ∧
      (∀ r ∈ references, first[r.2]?.getD none = none ∧ last[r.2]?.getD none = some r.1) ∧
      (∀ n, n ∉ references.map Prod.snd → last[n]? = first[n]?) := by
  induction references generalizing first with
  | nil =>
    have hlast : first = last := Except.ok.inj h
    subst hlast
    simp
  | cons r references ih =>
    rw [List.foldlM_cons] at h
    cases hstep : adopt root first r with
    | error e =>
      rw [hstep] at h
      exact nomatch h
    | ok next =>
      rw [hstep] at h
      obtain ⟨hroot, hfree, rfl⟩ := adopt_eq_ok hstep
      have hr : r.2 < first.size := hlt r List.mem_cons_self
      obtain ⟨hroots, hnodup, hadopted, hkept⟩ := ih h (by
        intro other hother
        rw [Array.size_setIfInBounds]
        exact hlt other (List.mem_cons_of_mem _ hother))
      have hnew : r.2 ∉ references.map Prod.snd := by
        intro hmem
        obtain ⟨other, hother, heq⟩ := List.mem_map.1 hmem
        have := (hadopted other hother).1
        rw [heq, Array.getElem?_setIfInBounds_self_of_lt hr] at this
        simp at this
      refine ⟨?_, ?_, ?_, ?_⟩
      · intro other hother
        rcases List.mem_cons.1 hother with rfl | hother
        · exact hroot
        · exact hroots other hother
      · rw [List.map_cons]
        exact List.nodup_cons.2 ⟨hnew, hnodup⟩
      · intro other hother
        rcases List.mem_cons.1 hother with rfl | hother
        · refine ⟨hfree, ?_⟩
          rw [hkept _ hnew, Array.getElem?_setIfInBounds_self_of_lt hr]
          rfl
        · obtain ⟨hbefore, hafter⟩ := hadopted other hother
          have hne : r.2 ≠ other.2 := by
            intro heq
            exact hnew (heq ▸ List.mem_map_of_mem hother)
          rw [Array.getElem?_setIfInBounds_ne hne] at hbefore
          exact ⟨hbefore, hafter⟩
      · intro n hn
        rw [List.map_cons, List.mem_cons, not_or] at hn
        rw [hkept n hn.2, Array.getElem?_setIfInBounds_ne (Ne.symm hn.1)]

theorem mem_references {p c : Nat} :
    (p, c) ∈ references nodes ↔ ∃ node, nodes.get? p = some node ∧ c ∈ node.children := by
  unfold references
  rw [List.mem_flatMap]
  constructor
  · rintro ⟨⟨n, node⟩, hmem, hc⟩
    obtain ⟨child, hchild, heq⟩ := List.mem_map.1 hc
    obtain ⟨rfl, rfl⟩ := Prod.mk.inj heq
    exact ⟨node, mem_entries.1 hmem, hchild⟩
  · rintro ⟨node, hget, hc⟩
    exact ⟨(p, node), mem_entries.2 hget, List.mem_map_of_mem hc⟩

theorem findParents_eq_ok (hnodes : ∀ n node, nodes.get? n = some node → NodeOk nodes.size node)
    (h : findParents nodes root = .ok parents) :
    (∀ p c, (p, c) ∈ references nodes → c ≠ root) ∧ ((references nodes).map Prod.snd).Nodup ∧
      (∀ p c, parents[c]?.getD none = some p ↔ (p, c) ∈ references nodes) := by
  have hlt : ∀ r ∈ references nodes,
      r.2 < (Array.replicate nodes.size (none : Option Nat)).size := by
    rintro ⟨p, c⟩ hr
    obtain ⟨node, hget, hc⟩ := mem_references.1 hr
    rw [Array.size_replicate]
    exact (hnodes p node hget).1 c hc
  obtain ⟨hroots, hnodup, hadopted, hkept⟩ := foldlM_adopt h hlt
  refine ⟨fun p c hr => hroots (p, c) hr, hnodup, ?_⟩
  intro p c
  refine ⟨fun hp => ?_, fun hr => (hadopted _ hr).2⟩
  by_cases hc : c ∈ (references nodes).map Prod.snd
  · obtain ⟨⟨q, child⟩, hr, rfl⟩ := List.mem_map.1 hc
    have hq := (hadopted _ hr).2
    dsimp only at hq hp
    rw [hp] at hq
    rwa [Option.some.inj hq]
  · rw [hkept c hc, Array.getElem?_replicate] at hp
    split at hp <;> simp at hp

theorem checkConnected_eq_ok (h : checkConnected nodes root parents = .ok ()) :
    (∀ n < nodes.size, n ≠ root → parents[n]?.getD none ≠ none) ∧
      ∀ n < nodes.size, n ∈ (graph nodes root).preOrder := by
  unfold checkConnected at h
  split at h
  · simp at h
  · rename_i hparents
    dsimp only at h
    split at h
    · simp at h
    · rename_i hreached
      refine ⟨fun n hn hroot => ?_, fun n hn => ?_⟩
      · have := List.find?_eq_none.1 hparents n (List.mem_range.2 hn)
        simpa [hroot] using this
      · have := List.find?_eq_none.1 hreached n (List.mem_range.2 hn)
        simpa using this

theorem validate_eq_ok (h : validate nodes = .ok (root, parents)) :
    findRoot nodes = .ok root ∧ findParents nodes root = .ok parents ∧
      checkConnected nodes root parents = .ok () := by
  unfold validate at h
  cases hroot : findRoot nodes with
  | error e =>
    rw [hroot] at h
    exact nomatch h
  | ok r =>
    rw [hroot] at h
    cases hparents : findParents nodes r with
    | error e =>
      simp [bind, Except.bind, hparents] at h
    | ok ps =>
      cases hconnected : checkConnected nodes r ps with
      | error e => simp [bind, Except.bind, hparents, hconnected] at h
      | ok u =>
        simp only [bind, Except.bind, hparents, hconnected, pure, Except.pure, Except.ok.injEq,
          Prod.mk.injEq] at h
        obtain ⟨rfl, rfl⟩ := h
        exact ⟨rfl, hparents, hconnected⟩

end Validation

end Concordance
