import Concordance.Kind

/-!
# Structural errors

The ways in which a list of nodes can fail to be a single tree under one root.
Each error names the nodes that show it.
-/
namespace Concordance

def indexText (index : Nat) : String :=
  "[" ++ toString index ++ "]"

/-- Why a list of nodes is not an expression. -/
inductive StructuralError
  | missingRoot
  | multipleRoots (first second : Nat)
  | danglingChild (parent child : Nat)
  | arityViolation (node : Nat) (kind : Kind) (found : Nat)
  | rootHasParent (parent : Nat)
  | sharedChild (child firstParent secondParent : Nat)
  | orphanNode (node : Nat)
  | cycleDetected (node : Nat)
deriving DecidableEq

def StructuralError.message : StructuralError → String
  | .missingRoot => "expression has no root node"
  | .multipleRoots first second =>
    "expression has more than one root: " ++ indexText first ++ " and " ++ indexText second
  | .danglingChild parent child =>
    "node " ++ indexText parent ++ " references missing child " ++ indexText child
  | .arityViolation node kind found =>
    kind.name ++ " node " ++ indexText node ++ " cannot have " ++ toString found ++ " children"
  | .rootHasParent parent => "root node is referenced as a child of " ++ indexText parent
  | .sharedChild child firstParent secondParent =>
    "node " ++ indexText child ++ " has two parents: " ++ indexText firstParent ++ " and "
      ++ indexText secondParent
  | .orphanNode node => "node " ++ indexText node ++ " has no parent and is not the root"
  | .cycleDetected node => "cycle detected through node " ++ indexText node

end Concordance
