import Concordance.Cbor.Schema
import Concordance.Hash.Digest
import Concordance.Kind

/-!
# Kinds and digests as CBOR items

A kind and a literal are variants; a digest is an array of its bytes.
-/
namespace Concordance

open Cbor (Item)

def Literal.toItem : Literal → Item
  | .boolean value => .variant "Boolean" (.boolean value)
  | .integer value => .variant "Integer" (.ofInt value.toInt)
  | .float bits => .variant "Float" (.unsigned bits.toNat)
  | .text value => .variant "Text" (.text value)

def Literal.ofItem? (i : Item) : Option Literal := do
  let (position, value) ← i.variant? ["Boolean", "Integer", "Float", "Text"]
  let value ← value
  match position with
  | 0 => return .boolean (← value.bool?)
  | 1 => return .integer (.ofInt (← value.signed? 64))
  | 2 => return .float (.ofNat (← value.natBelow? (Nat.pow 2 64)))
  | _ => return .text (← value.string?)

def keyOfItem? (i : Item) : Option Key :=
  (i.signed? 32).map Int32.ofInt

def keyToItem (key : Key) : Item :=
  .ofInt key.toInt

namespace Kind

/-- The names of all kinds in the order of their positions. -/
def variantNames : List String :=
  ["Root", "NecessarySet", "SufficientSet", "PropertySet", "And", "Or", "DisjointWith", "RoleSome",
   "RoleAll", "ConceptAssertion", "LiteralAssertion"]

def toItem : Kind → Item
  | .root => .text "Root"
  | .necessarySet => .text "NecessarySet"
  | .sufficientSet => .text "SufficientSet"
  | .propertySet => .text "PropertySet"
  | .conjunction => .text "And"
  | .disjunction => .text "Or"
  | .disjointWith => .text "DisjointWith"
  | .existential role => .variant "RoleSome" (.record [("role", keyToItem role)])
  | .universal role => .variant "RoleAll" (.record [("role", keyToItem role)])
  | .concept key => .variant "ConceptAssertion" (.record [("concept", keyToItem key)])
  | .literal value => .variant "LiteralAssertion" (.record [("literal", value.toItem)])

/-- A kind without payload. -/
def plain? (kind : Kind) (value : Option Item) : Option Kind := do
  Item.unit? value
  return kind

/-- The only field of a kind with payload. -/
def payload? {α : Type} (name : String) (read : Item → Option α) (value : Option Item) :
    Option α := do
  match ← (← value).fields? [name] with
  | [field] => Item.required? read field
  | _ => none

def ofItem? (i : Item) : Option Kind := do
  let (position, value) ← i.variant? variantNames
  match position with
  | 0 => plain? .root value
  | 1 => plain? .necessarySet value
  | 2 => plain? .sufficientSet value
  | 3 => plain? .propertySet value
  | 4 => plain? .conjunction value
  | 5 => plain? .disjunction value
  | 6 => plain? .disjointWith value
  | 7 => return .existential (← payload? "role" keyOfItem? value)
  | 8 => return .universal (← payload? "role" keyOfItem? value)
  | 9 => return .concept (← payload? "concept" keyOfItem? value)
  | _ => return .literal (← payload? "literal" Literal.ofItem? value)

end Kind

def Digest.toItem (d : Digest) : Item :=
  .ofList (fun byte => .unsigned byte.toNat) d.toList

/-- The digest of a list of 32 bytes. -/
def Digest.ofList? (bytes : List UInt8) : Option Digest :=
  if size : bytes.toArray.size = 32 then some ⟨⟨bytes.toArray, size⟩⟩ else none

def Digest.ofItem? (i : Item) : Option Digest := do
  let bytes ← i.list? fun byte => byte.natBelow? 256
  Digest.ofList? (bytes.map UInt8.ofNat)

end Concordance
