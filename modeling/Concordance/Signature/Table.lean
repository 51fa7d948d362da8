import Concordance.Expression
import Concordance.Signature

/-!
# Signatures of a whole expression

A signature table holds the signature and the subtree size of every node, found
in one pass from the leaves to the root. `Expression.signature?` answers for one
node by itself and looks at nothing but its subtree.
-/
namespace Concordance

/-- Signatures and subtree sizes of all nodes of an expression. -/
structure SignatureTable where
  signatures : Array Signature
  sizes : Array Nat
  root : Nat
deriving DecidableEq

namespace SignatureTable

/-- The table before any node is entered. -/
def blank (e : Expression) : SignatureTable where
  signatures := Array.replicate e.size Digest.zero
  sizes := Array.replicate e.size 0
  root := e.root

def get? (t : SignatureTable) (n : Nat) : Option Signature :=
  t.signatures[n]?

/-- Number of nodes in the subtree of a node; zero if the table does not have the node. -/
def subtreeSize (t : SignatureTable) (n : Nat) : Nat :=
  t.sizes[n]?.getD 0

/-- Enters a node whose children are entered already. -/
def enter (e : Expression) (t : SignatureTable) (n : Nat) : SignatureTable :=
  let children := e.children n
  match e.kind? n with
  | none => t
  | some kind =>
    { t with
      signatures := t.signatures.setIfInBounds n
        (Signature.ofNode kind (children.map fun child => (t.get? child).getD Digest.zero))
      sizes := t.sizes.setIfInBounds n (total (children.map t.subtreeSize) + 1) }

def ofExpression (e : Expression) : SignatureTable :=
  e.postOrder.foldl (enter e) (blank e)

def size (t : SignatureTable) : Nat :=
  t.signatures.size

def isEmpty (t : SignatureTable) : Bool :=
  t.size == 0

/-- Signature of the whole expression. -/
def rootSignature (t : SignatureTable) : Signature :=
  (t.get? t.root).getD Digest.zero

def nodesWith (t : SignatureTable) (s : Signature) : List Nat :=
  (List.range t.size).filter fun n => t.get? n = some s

/-- The different signatures of a table in byte order. -/
def distinct (t : SignatureTable) : List Signature :=
  sortBy Digest.le t.signatures.toList.eraseDups

/-- The nodes of a table grouped by signature, in byte order of the signatures. -/
def occurrences (t : SignatureTable) : List (Signature × List Nat) :=
  t.distinct.map fun s => (s, t.nodesWith s)

end SignatureTable

namespace Expression

/-- Signatures found so far in a subtree. -/
abbrev Memo := List (Nat × Signature)

/-- Finds the signature of a node whose children are found already. -/
def memoize (e : Expression) (memo : Memo) (n : Nat) : Memo :=
  match e.kind? n with
  | none => memo
  | some kind =>
    let children := (e.children n).filterMap fun child => List.lookup child memo
    (n, Signature.ofNode kind children) :: memo

/-- The signature of the subtree below a node, found without a table. -/
def signature? (e : Expression) (n : Nat) : Option Signature :=
  ((e.graph.rootedAt n).postOrder.foldl (memoize e) []).lookup n

end Expression
end Concordance
