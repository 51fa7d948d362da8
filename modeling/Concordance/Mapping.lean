import Concordance.Arena
import Concordance.Expression.Error
import Concordance.Sorted

/-!
# Mappings between two expressions

A mapping pairs nodes of a reference expression with nodes of a comparison
expression. It is kept twice, once from either side; pairs are only ever added,
and only between nodes that are both unmatched, so that the two sides agree.

A mapping can be made for more nodes than there are indices. Pairs are read from
the two lists, which have a place for every node, but unmatched nodes are found by
counting through the indices.
-/
namespace Concordance

/-- One of the two expressions of a correlation. -/
inductive Side
  | reference
  | comparison
deriving DecidableEq

/-- How a pair was found. -/
inductive Quality
  /-- The two nodes have equal signatures. -/
  | exact
  /-- The two nodes were paired by overlap or by their place; their contents may differ. -/
  | approximate
deriving DecidableEq

/-- The mark behind an approximate pair. -/
def Quality.mark : Quality → String
  | .exact => ""
  | .approximate => "*"

structure Correspondence where
  comparison : Nat
  quality : Quality
deriving DecidableEq

/-- Pairs of nodes, from the reference side and from the comparison side. -/
structure Mapping where
  forward : Array (Option Correspondence)
  backward : Array (Option Nat)
deriving DecidableEq

namespace Mapping

/-- The mapping without pairs between expressions of the given sizes. -/
def empty (referenceSize comparisonSize : Nat) : Mapping where
  forward := Array.replicate referenceSize none
  backward := Array.replicate comparisonSize none

/-- Adds a pair; refuses nodes that are out of range or matched already. -/
def insert? (m : Mapping) (r c : Nat) (q : Quality) : Option Mapping :=
  match m.forward[r]?, m.backward[c]? with
  | some none, some none =>
    some { forward := m.forward.setIfInBounds r (some ⟨c, q⟩)
           backward := m.backward.setIfInBounds c (some r) }
  | _, _ => none

/-- A pair is added exactly when both nodes are in range and unmatched. -/
theorem insert?_eq_some_iff {m m' : Mapping} {r c : Nat} {q : Quality} :
    m.insert? r c q = some m' ↔
      m.forward[r]? = some none ∧ m.backward[c]? = some none ∧
        m' = { forward := m.forward.setIfInBounds r (some ⟨c, q⟩)
               backward := m.backward.setIfInBounds c (some r) } := by
  unfold insert?
  split
  · rename_i hr hc
    simp [hr, hc, eq_comm]
  · rename_i h
    constructor
    · intro h'
      simp at h'
    · rintro ⟨hr, hc, -⟩
      exact absurd hc (h hr)

/-- Every new pair uses up one unmatched reference node. -/
theorem countP_isNone_insert? {m m' : Mapping} {r c : Nat} {q : Quality}
    (h : m.insert? r c q = some m') :
    m'.forward.toList.countP Option.isNone + 1 = m.forward.toList.countP Option.isNone := by
  obtain ⟨hr, -, rfl⟩ := insert?_eq_some_iff.1 h
  obtain ⟨range, free⟩ := Array.getElem?_eq_some_iff.1 hr
  have mem : none ∈ m.forward.toList := by
    rw [← free]
    simp
  have pos : 0 < m.forward.toList.countP Option.isNone := List.countP_pos_iff.2 ⟨none, mem, rfl⟩
  rw [Array.toList_setIfInBounds, List.countP_set (by simpa using range)]
  simp only [Array.getElem_toList, free, Option.isNone_none, Option.isNone_some, if_true,
    Bool.false_eq_true, if_false]
  omega

/-- Adds a pair if it is not refused. -/
def insert (m : Mapping) (r c : Nat) (q : Quality) : Mapping :=
  (m.insert? r c q).getD m

/-- Adds pairs one after another, leaving out those that are refused. -/
def insertAll (m : Mapping) (pairs : List (Nat × Nat × Quality)) : Mapping :=
  pairs.foldl (fun m pair => m.insert pair.1 pair.2.1 pair.2.2) m

variable (m : Mapping)

def correspondence? (r : Nat) : Option Correspondence :=
  m.forward[r]?.getD none

def comparisonFor? (r : Nat) : Option Nat :=
  (m.correspondence? r).map (·.comparison)

def referenceFor? (c : Nat) : Option Nat :=
  m.backward[c]?.getD none

def quality? (r : Nat) : Option Quality :=
  (m.correspondence? r).map (·.quality)

def hasReference (r : Nat) : Bool :=
  (m.correspondence? r).isSome

def hasComparison (c : Nat) : Bool :=
  (m.referenceFor? c).isSome

def referenceSize : Nat :=
  m.forward.size

def comparisonSize : Nat :=
  m.backward.size

/-- All pairs by ascending reference node. -/
def pairs : List (Nat × Correspondence) :=
  (List.range m.referenceSize).filterMap fun r => (m.correspondence? r).map (r, ·)

def size : Nat :=
  m.pairs.length

def isEmpty : Bool :=
  m.size == 0

def exactCount : Nat :=
  m.pairs.countP fun pair => pair.2.quality = .exact

def approximateCount : Nat :=
  m.size - m.exactCount

/-- The unmatched ones of a number of nodes, ascending. The nodes are gone through by index, and
numbers of nodes wrap around at the number of indices. -/
def unmatchedAmong (size : Nat) (matched : Nat → Bool) : List Nat :=
  (List.range (size % indexCount)).filter fun n => !matched n

/-- Unmatched reference nodes, ascending. -/
def unmatchedReference : List Nat :=
  unmatchedAmong m.referenceSize m.hasReference

def unmatchedComparison : List Nat :=
  unmatchedAmong m.comparisonSize m.hasComparison

/-- Whether every node of both sides is matched. -/
def isTotal : Bool :=
  m.forward.all Option.isSome && m.backward.all Option.isSome

/-- Partners of the reference nodes, by ascending reference node. -/
def referenceToComparison : List (Nat × Nat) :=
  m.pairs.map fun pair => (pair.1, pair.2.comparison)

/-- Reference nodes by ascending partner; of several reference nodes with one partner the last
one counts. -/
def comparisonToReference : List (Nat × Nat) :=
  let partners := m.pairs.map (·.2.comparison)
  (ascending partners.eraseDups).filterMap fun c =>
    (m.pairs.reverse.find? (·.2.comparison = c)).map fun pair => (c, pair.1)

def display : String :=
  String.join (m.pairs.map fun pair =>
    indexText pair.1 ++ " -> " ++ indexText pair.2.comparison ++ pair.2.quality.mark ++ "\n")

end Mapping
end Concordance
