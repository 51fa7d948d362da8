import Concordance.Expression

/-!
# Layout of an expression

The layout of an expression gives every node its position in pre-order, the
number of nodes in its subtree and its depth. A node lies below another one
exactly when its position falls into the interval of positions that starts
behind the other node and is as long as the other node's subtree.

Positions, sizes and depths are natural numbers in place of numbers of 32 bits, so
a layout is meant for an expression with fewer nodes than there are indices.
-/
namespace Concordance

/-- Pre-order position, subtree size and depth of every node. -/
structure Layout where
  position : Array Nat
  extent : Array Nat
  depths : Array Nat

namespace Layout

/-- Every node of a pre-order with its position in it. -/
def positions (size : Nat) (order : List Nat) : Array Nat :=
  order.zipIdx.foldl (fun table entry => table.setIfInBounds entry.1 entry.2)
    (Array.replicate size 0)

/-- Subtree sizes, summed up from the leaves. -/
def extents (e : Expression) : Array Nat :=
  e.postOrder.foldl
    (fun table n =>
      table.setIfInBounds n (total ((e.children n).map fun child => table[child]?.getD 1) + 1))
    (Array.replicate e.size 1)

/-- Depths, handed down from the root. -/
def depthTable (e : Expression) : Array Nat :=
  e.preOrder.foldl
    (fun table n =>
      (e.children n).foldl
        (fun table child => table.setIfInBounds child (table[n]?.getD 0 + 1)) table)
    (Array.replicate e.size 0)

def ofExpression (e : Expression) : Layout where
  position := positions e.size e.preOrder
  extent := extents e
  depths := depthTable e

def depth (l : Layout) (n : Nat) : Nat :=
  l.depths[n]?.getD 0

/-- Whether the first node is a strict ancestor of the second. -/
def encloses (l : Layout) (a n : Nat) : Bool :=
  let start := l.position[a]?.getD 0
  let place := l.position[n]?.getD 0
  start < place && place < start + l.extent[a]?.getD 1

end Layout
end Concordance
