import Concordance.Graph

/-!
# Outlines

An outline lists every reference to a node that is met on the way down from the
root, with its depth. A node is listed in full where it is met first; later
references to it are listed as repeats, and references to nothing as missing.
-/
namespace Concordance.Graph

/-- How a reference is listed. -/
inductive Listing
  | full (kind : Kind)
  | repeated
  | missing
deriving DecidableEq

/-- One line of an outline. -/
structure Entry where
  node : Nat
  depth : Nat
  listing : Listing
deriving DecidableEq

/-- References to the children of a node on top of a stack, the first child uppermost. -/
def descend (children : List Nat) (depth : Nat) (rest : List (Nat × Nat)) : List (Nat × Nat) :=
  children.map (·, depth) ++ rest

theorem length_descend (children : List Nat) (depth : Nat) (rest : List (Nat × Nat)) :
    (descend children depth rest).length = children.length + rest.length := by
  simp [descend]

/-- Continues an outline from a stack of nodes with their depths. -/
def outlineFrom (g : Graph) (stack : List (Nat × Nat)) (listed : List Nat) : List Entry :=
  match stack with
  | [] => []
  | (n, depth) :: rest =>
    if n < g.size then
      match g.kind? n with
      | none => ⟨n, depth, .missing⟩ :: outlineFrom g rest listed
      | some kind =>
        if n ∉ listed then
          ⟨n, depth, .full kind⟩ ::
            outlineFrom g (descend (g.children n) (depth + 1) rest) (listed ++ [n])
        else ⟨n, depth, .repeated⟩ :: outlineFrom g rest listed
    else ⟨n, depth, .missing⟩ :: outlineFrom g rest listed
termination_by stack.length + g.openReferences listed
decreasing_by
  · simp
  · rename_i range fresh
    have := g.openReferences_append range fresh
    simp only [length_descend, List.length_cons]
    omega
  · simp
  · simp

def outline (g : Graph) : List Entry :=
  g.outlineFrom [(g.root, 0)] []

end Concordance.Graph
