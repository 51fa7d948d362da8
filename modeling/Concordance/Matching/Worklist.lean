import Concordance.Sorted

/-!
# Worklist of nodes by rank

Nodes that wait for a check are taken out by ascending rank, and by ascending
number among nodes of one rank. A node waits at most once at a time.
-/
namespace Concordance.Matching

/-- Waiting nodes with their ranks, in the order in which they are taken out. -/
structure Worklist where
  entries : List (Nat × Nat)
deriving DecidableEq

namespace Worklist

def empty : Worklist :=
  ⟨[]⟩

def size (w : Worklist) : Nat :=
  w.entries.length

/-- Order of entries: by rank, then by node. -/
def entryLe (a b : Nat × Nat) : Bool :=
  decide (a.1 < b.1) || (a.1 == b.1 && decide (a.2 ≤ b.2))

/-- Lets a node wait at a rank, unless it is waiting already. -/
def mark (w : Worklist) (node rank : Nat) : Worklist :=
  if w.entries.any (·.2 == node) then w else ⟨insertBy entryLe (rank, node) w.entries⟩

/-- Takes out the first node. -/
def pop? (w : Worklist) : Option (Nat × Worklist) :=
  match w.entries with
  | [] => none
  | entry :: rest => some (entry.2, ⟨rest⟩)

theorem size_mark_le (w : Worklist) (node rank : Nat) : (w.mark node rank).size ≤ w.size + 1 := by
  unfold mark size
  split
  · omega
  · simp [(insertBy_perm entryLe (rank, node) w.entries).length_eq]

theorem size_pop {w rest : Worklist} {node : Nat} (h : w.pop? = some (node, rest)) :
    rest.size + 1 = w.size := by
  unfold pop? at h
  split at h
  · simp at h
  · rename_i entry tail eq
    obtain ⟨rfl, rfl⟩ := Prod.mk.inj (Option.some.inj h)
    simp [size, eq]

end Worklist
end Concordance.Matching
