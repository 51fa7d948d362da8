import Concordance.Event
import Concordance.Matching.Problem
import Concordance.Matching.Worklist

/-!
# State of a matching

The mapping made so far, the new pairs whose children are still to be paired,
the parents that are still to be checked, and the log. A pair is accepted if the
kinds of its nodes agree, it does not turn an ancestor into a descendant, and
both nodes are unmatched.

Every accepted pair uses up an unmatched reference node and adds at most two
things to be done. `State.work` weighs both, so that accepting never adds work.
-/
namespace Concordance.Matching

/-- A node whose signature was asked for although its table ends before it. -/
structure Gap where
  side : Side
  node : Nat
deriving DecidableEq

/-- State of a matching. -/
structure State where
  mapping : Mapping
  /-- Matched reference nodes whose children are still to be paired, oldest first. -/
  pending : List Nat
  /-- Unmatched reference nodes that are still to be checked. -/
  worklist : Worklist
  log : List Event
  /-- The first signature that was missing, if any was. -/
  gap : Option Gap
deriving DecidableEq

namespace State

/-- The state before the first step. -/
def initial (p : Problem) : State where
  mapping := .empty p.reference.size p.comparison.size
  pending := []
  worklist := .empty
  log := []
  gap := none

def note (s : State) (e : Event) : State :=
  { s with log := s.log ++ [e] }

/-- Asks for the signatures of nodes: the first one that is missing is a gap. -/
def ask (s : State) (side : Side) (table : SignatureTable) (nodes : List Nat) : State :=
  match s.gap, nodes.find? (fun n => decide (table.size ≤ n)) with
  | none, some n => { s with gap := some ⟨side, n⟩ }
  | _, _ => s

/-- Lets the parent of a newly matched reference node wait for its check. -/
def wake (p : Problem) (m : Mapping) (w : Worklist) (r : Nat) : Worklist :=
  match p.reference.parent? r with
  | none => w
  | some parent => if m.hasReference parent then w else w.mark parent (p.ranks[parent]?.getD 0)

/-- Accepts a pair, or refuses it. -/
def pair? (p : Problem) (s : State) (r c : Nat) (q : Quality) : Option State :=
  if p.admits s.mapping r c then
    (s.mapping.insert? r c q).map fun m =>
      { s with
        mapping := m
        pending := s.pending ++ [r]
        worklist := wake p m s.worklist r
        log := s.log ++ [.matched r c q] }
  else none

/-- Accepts a pair, or leaves the state as it is. -/
def pair (p : Problem) (s : State) (r c : Nat) (q : Quality) : State :=
  (s.pair? p r c q).getD s

/-- Bound on the steps that are left: what is waiting, and two for each unmatched reference node. -/
def work (s : State) : Nat :=
  2 * s.mapping.forward.toList.countP Option.isNone + s.pending.length + s.worklist.size

@[simp] theorem work_ask (s : State) (side : Side) (table : SignatureTable) (nodes : List Nat) :
    (s.ask side table nodes).work = s.work := by
  unfold ask
  split <;> rfl

theorem size_wake_le (p : Problem) (m : Mapping) (w : Worklist) (r : Nat) :
    (wake p m w r).size ≤ w.size + 1 := by
  unfold wake
  split
  · omega
  · split
    · omega
    · exact w.size_mark_le _ _

theorem work_pair? {p : Problem} {s s' : State} {r c : Nat} {q : Quality}
    (h : s.pair? p r c q = some s') : s'.work ≤ s.work := by
  unfold pair? at h
  split at h
  · obtain ⟨m, inserted, rfl⟩ := Option.map_eq_some_iff.1 h
    have used := Mapping.countP_isNone_insert? inserted
    have woken := size_wake_le p m s.worklist r
    simp only [work, List.length_append, List.length_singleton]
    omega
  · simp at h

theorem work_pair_le (p : Problem) (s : State) (r c : Nat) (q : Quality) :
    (s.pair p r c q).work ≤ s.work := by
  unfold pair
  cases h : s.pair? p r c q with
  | none => simp
  | some s' => simpa using work_pair? h

end State
end Concordance.Matching
