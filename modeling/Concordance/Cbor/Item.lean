/-!
# CBOR data items

The data model of CBOR, as far as reading and writing tell items apart. A map of
one entry under the shortest possible head is an item of its own, because such a
map can stand for a variant with its value; all other maps are alike, whatever
the form of their head.

Of the library that turns values into items it is assumed that a record becomes a
map whose keys are the names of its fields, a variant its name or a map from its
name to its value, and an empty option a null.
-/
namespace Concordance.Cbor

/-- A data item. -/
inductive Item
  | unsigned (value : Nat)
  /-- The number `-1 - value`. -/
  | negative (value : Nat)
  | bytes (content : List UInt8)
  | text (content : String)
  | array (items : List Item)
  /-- A map of one entry under the shortest head. -/
  | entry (key value : Item)
  | map (entries : List (Item × Item))
  | tagged (tag : Nat) (content : Item)
  | boolean (value : Bool)
  | null
  | undefined
  /-- A floating-point number by its two, four or eight bytes. -/
  | float (content : List UInt8)

namespace Item

/-- The item below all tags. -/
def untagged : Item → Item
  | .tagged _ content => content.untagged
  | item => item

def ofInt : Int → Item
  | .ofNat n => .unsigned n
  | .negSucc n => .negative n

def ofOption {α : Type} (write : α → Item) : Option α → Item
  | none => .null
  | some value => write value

def ofList {α : Type} (write : α → Item) (values : List α) : Item :=
  .array (values.map write)

/-- The item of a variant that has a value. -/
def variant (name : String) (value : Item) : Item :=
  .entry (.text name) value

/-- The item of a record: a map from field names to values. -/
def record : List (String × Item) → Item
  | [(name, value)] => .entry (.text name) value
  | fields => .map (fields.map fun field => (.text field.1, field.2))

end Item
end Concordance.Cbor
