import Concordance.Proofs.Rejection
import Concordance.Proofs.Search
import Mathlib.Data.Fintype.EquivFin
import Mathlib.Order.WellFounded
import Mathlib.Order.RelClasses

/-!
# Nodes that hang off a cycle

When no node is shared and none but the root is without a parent, a node that the
root does not reach has a parent that the root does not reach either. Since there
are only finitely many nodes, the way up from it must come to a cycle. The error
names the first node that is not reached, wherever it hangs: it is on the cycle
itself only if it leads back to it.
-/
namespace Concordance

open Validation

variable {nodes : Arena Node} {root m n p q c : Nat} {parents : Parents}

/-- A node leads to another one along child references. -/
def LeadsTo (nodes : Arena Node) : Nat → Nat → Prop :=
  Relation.ReflTransGen (HasChild nodes)

/-- A node leads back to itself in one or more steps. -/
def OnCycle (nodes : Arena Node) (n : Nat) : Prop :=
  Relation.TransGen (HasChild nodes) n n

/-- A list of nodes that passes the first two checks, in which every node but the root has a
parent. -/
structure SingleParents (nodes : Arena Node) (root : Nat) : Prop where
  root_lt_size : root < nodes.size
  in_range : ∀ p c, HasChild nodes p c → c < nodes.size
  exists_parent : ∀ n < nodes.size, n ≠ root → ∃ p, HasChild nodes p n
  parent_unique : ∀ p q c, HasChild nodes p c → HasChild nodes q c → p = q

namespace Validation

theorem singleParents (hroot : findRoot nodes = .ok root)
    (hparents : findParents nodes root = .ok parents)
    (hall : ∀ n < nodes.size, n ≠ root → parents[n]?.getD none ≠ none) :
    SingleParents nodes root := by
  obtain ⟨hok, -, hlt⟩ := findRoot_eq_ok hroot
  have hparent := (findParents_eq_ok hok hparents).2.2
  refine ⟨hlt, ?_, ?_, ?_⟩
  · rintro p c ⟨node, hnode, hc⟩
    exact (hok p node hnode).1 c hc
  · intro n hn hne
    obtain ⟨p, hp⟩ := Option.ne_none_iff_exists'.1 (hall n hn hne)
    exact ⟨p, hasChild_iff.2 ((hparent p n).1 hp)⟩
  · intro p q c hp hq
    have hp' := (hparent p c).2 (hasChild_iff.1 hp)
    have hq' := (hparent q c).2 (hasChild_iff.1 hq)
    exact Option.some.inj (hp'.symm.trans hq')

theorem findRoot_ne_cycleDetected : findRoot nodes ≠ .error (.cycleDetected n) := by
  intro h
  rcases findRoot_eq_error h with ⟨k, node, seen, -, hstop, -, -⟩ | ⟨heq, -, -⟩
  · rcases checkNode_eq_error hstop with ⟨c, -, -, heq⟩ | ⟨-, heq⟩ | ⟨-, first, -, heq⟩ <;> cases heq
  · cases heq

theorem lt_size_of_hasChild (h : HasChild nodes p c) : p < nodes.size := by
  obtain ⟨node, hnode, -⟩ := h
  exact lt_size_of_get? hnode

end Validation

namespace SingleParents

variable (h : SingleParents nodes root)

include h

theorem mem_preOrder_iff : n ∈ (graph nodes root).preOrder ↔ LeadsTo nodes root n := by
  rw [Graph.mem_preOrder_iff]
  constructor
  · rintro ⟨-, hpath⟩
    exact hpath.lift id fun a b hstep => edge_graph_iff.1 hstep.1
  · intro hpath
    exact ⟨h.root_lt_size, hpath.lift id fun a b hc => ⟨edge_graph_iff.2 hc, h.in_range a b hc⟩⟩

/-- A node that the root does not lead to has a parent that it does not lead to either. -/
theorem exists_parent_away (hn : n < nodes.size) (haway : ¬ LeadsTo nodes root n) :
    ∃ p, HasChild nodes p n ∧ p < nodes.size ∧ ¬ LeadsTo nodes root p := by
  have hne : n ≠ root := by
    rintro rfl
    exact haway .refl
  obtain ⟨p, hp⟩ := h.exists_parent n hn hne
  exact ⟨p, hp, lt_size_of_hasChild hp, fun hlead => haway (hlead.tail hp)⟩

/-- A node that the root does not lead to hangs off a cycle. -/
theorem exists_cycle_above (hn : n < nodes.size) (haway : ¬ LeadsTo nodes root n) :
    ∃ m, OnCycle nodes m ∧ LeadsTo nodes m n := by
  by_contra hnone
  -- without a cycle the nodes above that the root does not lead to have a topmost one
  let Above := { m : Fin nodes.size // ¬ LeadsTo nodes root m ∧ LeadsTo nodes m n }
  let below : Above → Above → Prop := fun a b => Relation.TransGen (HasChild nodes) a.1 b.1
  have : IsTrans Above below := ⟨fun _ _ _ => Relation.TransGen.trans⟩
  have : Std.Irrefl below := ⟨fun a hcycle => hnone ⟨a.1, hcycle, a.2.2⟩⟩
  have hwf : WellFounded below := Finite.wellFounded_of_trans_of_irrefl below
  obtain ⟨⟨m, hm, hlead⟩, -, htop⟩ := hwf.has_min Set.univ ⟨⟨⟨n, hn⟩, haway, .refl⟩, trivial⟩
  obtain ⟨p, hp, hlt, hp'⟩ := h.exists_parent_away m.2 hm
  exact htop ⟨⟨p, hlt⟩, hp', .head hp hlead⟩ trivial (.single hp)

/-- What leads to a node on a cycle is led to by it. -/
theorem leadsTo_of_onCycle (hcycle : OnCycle nodes n) (hlead : LeadsTo nodes m n) :
    LeadsTo nodes n m := by
  induction hlead using Relation.ReflTransGen.head_induction_on with
  | refl => exact .refl
  | @head a b hab _ ih =>
    -- the way from the node to `b` comes through the only parent of `b`
    have hpath : Relation.TransGen (HasChild nodes) n b := by
      rcases Relation.reflTransGen_iff_eq_or_transGen.1 ih with rfl | hpath
      · exact hcycle
      · exact hpath
    obtain ⟨p, hp, hpb⟩ := Relation.TransGen.tail'_iff.1 hpath
    rwa [h.parent_unique a p b hab hpb]

theorem onCycle_iff (hcycle : OnCycle nodes m) (hlead : LeadsTo nodes m n) :
    OnCycle nodes n ↔ LeadsTo nodes n m := by
  constructor
  · intro hn
    exact h.leadsTo_of_onCycle hn hlead
  · intro hback
    exact Relation.TransGen.trans_right hback (Relation.TransGen.trans_left hcycle hlead)

end SingleParents

/-- The node of a cycle error hangs off a cycle, and is on a cycle itself only if it leads back to
that one. Either it is its own child, or it is the first node that the root does not lead to. -/
theorem cycle_errors_hang_off_cycles (nodes : Arena Node) (n : Nat)
    (h : Expression.ofNodes nodes = .error (.cycleDetected n)) :
    (∃ m, OnCycle nodes m ∧ LeadsTo nodes m n ∧ (OnCycle nodes n ↔ LeadsTo nodes n m)) ∧
      (HasChild nodes n n ∨
        ∃ root, IsRootNode nodes root ∧ ∀ k ≤ n, LeadsTo nodes root k ↔ k < n) := by
  have hself : HasChild nodes n n →
      ∃ m, OnCycle nodes m ∧ LeadsTo nodes m n ∧ (OnCycle nodes n ↔ LeadsTo nodes n m) := by
    intro hn
    exact ⟨n, .single hn, .refl, iff_of_true (.single hn) .refl⟩
  rcases validate_eq_error (Expression.ofNodes_eq_error_iff.1 h) with
    hroot | ⟨root, hroot, hparents | ⟨parents, hparents, hconnected⟩⟩
  · exact absurd hroot findRoot_ne_cycleDetected
  · obtain ⟨j, p, c, hj, ⟨-, heq⟩ | ⟨rfl, heq⟩ | ⟨i, first, -, -, heq⟩⟩ :=
      findParents_eq_error (findRoot_eq_ok hroot).1 hparents
    · cases heq
    · obtain rfl : n = c := StructuralError.cycleDetected.inj heq
      have hn : HasChild nodes n n := hasChild_iff.2 (List.mem_of_getElem? hj)
      exact ⟨hself hn, .inl hn⟩
    · cases heq
  · rcases checkConnected_eq_error hconnected with
      ⟨k, -, -, -, heq⟩ | ⟨hall, k, hk, hmissed, hreached, heq⟩
    · cases heq
    · obtain rfl : n = k := StructuralError.cycleDetected.inj heq
      have hsingle := singleParents hroot hparents hall
      rw [hsingle.mem_preOrder_iff] at hmissed
      obtain ⟨m, hcycle, hlead⟩ := hsingle.exists_cycle_above hk hmissed
      refine ⟨⟨m, hcycle, hlead, hsingle.onCycle_iff hcycle hlead⟩, .inr ⟨root, ?_, ?_⟩⟩
      · exact (isRootNode_iff hroot).2 rfl
      · intro k hkn
        constructor
        · intro hroots
          by_contra hlt
          obtain rfl : k = n := by omega
          exact hmissed hroots
        · intro hlt
          exact hsingle.mem_preOrder_iff.1 (hreached k hlt)

/-- Two conjunctions that list each other, one of them also a concept, beside a tree. -/
def Sample.hanging : Arena Node :=
  .ofList [⟨.concept 1, []⟩, ⟨.conjunction, [2, 0]⟩, ⟨.conjunction, [1]⟩, ⟨.concept 2, []⟩,
    ⟨.root, [3]⟩]

theorem Sample.ofNodes_hanging :
    Expression.ofNodes Sample.hanging = .error (.cycleDetected 0) := by
  apply Expression.ofNodes_eq_error_iff.2
  decide +kernel

theorem cycle_errors_hang_off_cycles_hanging :
    Expression.ofNodes Sample.hanging = .error (.cycleDetected 0) ∧
      ∃ m, OnCycle Sample.hanging m ∧ LeadsTo Sample.hanging m 0 := by
  refine ⟨Sample.ofNodes_hanging, ?_⟩
  obtain ⟨⟨m, hcycle, hlead, -⟩, -⟩ :=
    cycle_errors_hang_off_cycles Sample.hanging 0 Sample.ofNodes_hanging
  exact ⟨m, hcycle, hlead⟩

/-- A cycle error can name a leaf. -/
theorem cycle_error_names_leaf :
    Expression.ofNodes Sample.hanging = .error (.cycleDetected 0) ∧ ¬ OnCycle Sample.hanging 0 := by
  refine ⟨Sample.ofNodes_hanging, fun hcycle => ?_⟩
  obtain ⟨c, ⟨node, hnode, hc⟩, -⟩ := Relation.TransGen.head'_iff.1 hcycle
  obtain rfl : ⟨.concept 1, []⟩ = node := Option.some.inj hnode
  simp at hc

end Concordance
