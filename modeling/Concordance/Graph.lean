import Concordance.Kind

/-!
# Rooted graphs and their traversals

A graph has nodes numbered from zero and a root; each node has a kind and a list
of children. Nothing else is asked of a graph: the root and the children may be
out of range, a node may be shared by several parents, and children may lead
back to their ancestors. Both traversals visit every node once, from the root,
children in stored order, and skip what is out of range or already visited.

They work with an explicit stack. What is left to do is measured by the stack
and by the child references of the nodes that are still to be visited.
-/
namespace Concordance

def total (numbers : List Nat) : Nat :=
  numbers.foldr (· + ·) 0

@[simp] theorem total_nil : total [] = 0 := rfl

@[simp] theorem total_cons (n : Nat) (ns : List Nat) : total (n :: ns) = n + total ns := rfl

/-- A rooted graph of typed nodes. -/
structure Graph where
  root : Nat
  size : Nat
  /-- Kind of a node; none for a number that names no node. -/
  kind? : Nat → Option Kind
  /-- Children of a node in stored order; none for a leaf or a number that names no node. -/
  children : Nat → List Nat

namespace Graph

def isEmpty (g : Graph) : Bool :=
  g.size == 0

/-- The same graph seen from another root. -/
def rootedAt (g : Graph) (root : Nat) : Graph :=
  { g with root := root }

/-- Number of child references of the nodes that are not in a list. -/
def openReferences (g : Graph) (visited : List Nat) : Nat :=
  total ((List.range g.size).map fun n => if n ∈ visited then 0 else (g.children n).length)

private theorem total_map_add_le {f f' : Nat → Nat} {n : Nat} (le : ∀ m, f' m ≤ f m) (zero : f' n = 0)
    {xs : List Nat} (mem : n ∈ xs) : total (xs.map f') + f n ≤ total (xs.map f) := by
  induction xs with
  | nil => simp at mem
  | cons x xs ih =>
    have rest : total (xs.map f') ≤ total (xs.map f) := by
      clear ih mem
      induction xs with
      | nil => simp
      | cons y ys ih => have := le y; simp only [List.map_cons, total_cons]; omega
    simp only [List.map_cons, total_cons]
    by_cases hx : n = x
    · subst hx; omega
    · have := ih (by simpa [hx] using mem)
      have := le x
      omega

/-- Visiting a node closes its references. -/
theorem openReferences_append (g : Graph) {visited : List Nat} {n : Nat} (range : n < g.size)
    (fresh : n ∉ visited) :
    g.openReferences (visited ++ [n]) + (g.children n).length ≤ g.openReferences visited := by
  have h := @total_map_add_le (fun m => if m ∈ visited then 0 else (g.children m).length)
    (fun m => if m ∈ visited ++ [n] then 0 else (g.children m).length) n
    (by intro m; by_cases hm : m ∈ visited <;> simp [hm]; split <;> simp)
    (by simp) (List.range g.size) (List.mem_range.2 range)
  simpa [openReferences, fresh] using h

/-- Continues a pre-order walk from a stack of nodes. -/
def preOrderFrom (g : Graph) (stack order : List Nat) : List Nat :=
  match stack with
  | [] => order
  | n :: rest =>
    if n < g.size ∧ n ∉ order then preOrderFrom g (g.children n ++ rest) (order ++ [n])
    else preOrderFrom g rest order
termination_by stack.length + g.openReferences order
decreasing_by
  · rename_i h
    have := g.openReferences_append h.1 h.2
    simp only [List.length_append, List.length_cons]
    omega
  · simp

/-- Nodes reachable from the root, each one in front of its children as far as they were not
reached before. -/
def preOrder (g : Graph) : List Nat :=
  g.preOrderFrom [g.root] []

/-- A stack entry of a post-order walk. -/
inductive Visit
  /-- The node is still to be looked at. -/
  | enter (node : Nat)
  /-- Everything below the node is done. -/
  | leave (node : Nat)
deriving DecidableEq

/-- Steps that a stack of visits stands for by itself. -/
def Visit.weight : List Visit → Nat
  | [] => 0
  | .enter _ :: rest => weight rest + 2
  | .leave _ :: rest => weight rest + 1

/-- Puts the children of a node on top of a stack, the first child uppermost. -/
def Visit.enterAll (children : List Nat) (rest : List Visit) : List Visit :=
  children.map .enter ++ rest

theorem Visit.weight_enterAll (children : List Nat) (rest : List Visit) :
    weight (enterAll children rest) = 2 * children.length + weight rest := by
  induction children with
  | nil => simp [enterAll]
  | cons c cs ih =>
    simp only [enterAll, List.map_cons, List.cons_append, weight, List.length_cons] at *
    omega

/-- Continues a post-order walk from a stack of visits. -/
def postOrderFrom (g : Graph) (stack : List Visit) (entered order : List Nat) : List Nat :=
  match stack with
  | [] => order
  | .leave n :: rest => postOrderFrom g rest entered (order ++ [n])
  | .enter n :: rest =>
    if n < g.size ∧ n ∉ entered then
      postOrderFrom g (Visit.enterAll (g.children n) (.leave n :: rest)) (entered ++ [n]) order
    else postOrderFrom g rest entered order
termination_by Visit.weight stack + 2 * g.openReferences entered
decreasing_by
  · simp only [Visit.weight]; omega
  · rename_i h
    have := g.openReferences_append h.1 h.2
    simp only [Visit.weight_enterAll, Visit.weight]
    omega
  · simp only [Visit.weight]; omega

/-- Nodes reachable from the root, each one behind its children as far as they do not lead back
to it. -/
def postOrder (g : Graph) : List Nat :=
  g.postOrderFrom [.enter g.root] [] []

end Graph
end Concordance
