import Concordance.Hash.Digest
import Concordance.Kind.Label
import Concordance.Sorted

/-!
# Content signatures

The signature of a node is a digest of its label and of the signatures of its
children. Children are sorted before they are hashed, so their order carries no
meaning: two subtrees that differ only in the order of children have the same
signature.
-/
namespace Concordance

/-- Digest of the content of a subtree. -/
abbrev Signature := Digest

namespace Signature

/-- The domain in which nodes are hashed. -/
def domain : List UInt8 :=
  Digest.utf8 "EXPRESSION_NODE"

/-- What is hashed for a node: its label, the number of its children, and their signatures in
ascending order. -/
def content (kind : Kind) (children : List Signature) : List UInt8 :=
  kind.label ++ littleEndian 8 children.length ++ (sortBy Digest.le children).flatMap Digest.toList

/-- The signature of a node of a kind over children with the given signatures. -/
def ofNode (kind : Kind) (children : List Signature) : Signature :=
  .ofDomain domain (content kind children)

def display (s : Signature) : String :=
  "#" ++ s.short

end Signature
end Concordance
