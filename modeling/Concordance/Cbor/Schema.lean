import Concordance.Cbor.Decoding

/-!
# Reading typed values from CBOR items

How a value of a type is read from an item is assumed of the library as well.
Numbers have to be in the range of their field. A record is a map whose keys are
field names or field positions, or an array of the fields in order; unknown
fields are passed over. A variant is its identifier alone, a map from the
identifier to a value, or an array of the two. Tags are passed over, except in
front of a null and in front of the map or array of a variant.
-/
namespace Concordance.Cbor.Item

/-- A natural number below a bound. -/
def natBelow? (bound : Nat) (i : Item) : Option Nat :=
  match i.untagged with
  | .unsigned value => if value < bound then some value else none
  | _ => none

/-- An integer of a signed width. -/
def signed? (bits : Nat) (i : Item) : Option Int :=
  match i.untagged with
  | .unsigned value => if value < Nat.pow 2 (bits - 1) then some value else none
  | .negative value => if value < Nat.pow 2 (bits - 1) then some (.negSucc value) else none
  | _ => none

def index? (i : Item) : Option Nat :=
  i.natBelow? (Nat.pow 2 32)

def size? (i : Item) : Option Nat :=
  i.natBelow? (Nat.pow 2 64)

def bool? (i : Item) : Option Bool :=
  match i.untagged with
  | .boolean value => some value
  | _ => none

/-- A text, also from a byte string. -/
def string? (i : Item) : Option String :=
  match i.untagged with
  | .text content => some content
  | .bytes content => text? content
  | _ => none

/-- An optional value: a null without tags is none, anything else has to be a value. -/
def option? {α : Type} (read : Item → Option α) (i : Item) : Option (Option α) :=
  match i with
  | .null => some none
  | i => (read i).map some

def list? {α : Type} (read : Item → Option α) (i : Item) : Option (List α) :=
  match i.untagged with
  | .array items => items.mapM read
  | _ => none

/-- The position of the name that an item spells or numbers; an item that can neither spell nor
number a name is refused, and any other one that is not in the list has no position. -/
def position? (names : List String) (i : Item) : Option (Option Nat) :=
  match i.untagged with
  | .unsigned value => some (if value < names.length then some value else none)
  | .text content => some (names.idxOf? content)
  | .bytes content => some (names.findIdx? fun name => name.toUTF8.toList == content)
  | _ => none

/-- Puts the value of one entry into the slot of its field. -/
def fill (names : List String) (slots : List (Option Item)) (entry : Item × Item) :
    Option (List (Option Item)) := do
  match ← position? names entry.1 with
  | none => return slots
  | some position =>
    match slots[position]? with
    | some none => return slots.set position (some entry.2)
    | _ => none

/-- The values of the fields of a record, in the order of the names. An array has to have all of
them, unless trailing ones may be left out. -/
def slots? (names : List String) (trailing : Bool) (i : Item) : Option (List (Option Item)) :=
  match i.untagged with
  | .entry key value => fill names (names.map fun _ => none) (key, value)
  | .map entries => entries.foldlM (fill names) (names.map fun _ => none)
  | .array items =>
    if items.length = names.length || (trailing && items.length < names.length) then
      some (items.map some ++ List.replicate (names.length - items.length) none)
    else none
  | _ => none

/-- The fields of a record that may not leave out fields at the end of an array. -/
def fields? (names : List String) (i : Item) : Option (List (Option Item)) :=
  slots? names false i

def required? {α : Type} (read : Item → Option α) (slot : Option Item) : Option α :=
  slot.bind read

/-- The value of an optional field; a field that is not there is none. -/
def optional? {α : Type} (read : Item → Option α) (slot : Option Item) : Option (Option α) :=
  match slot with
  | none => some none
  | some i => option? read i

def defaulted? {α : Type} (read : Item → Option α) (default : α) (slot : Option Item) : Option α :=
  match slot with
  | none => some default
  | some i => read i

/-- The position of a variant among the names of all variants, and its value if there is one. -/
def variant? (names : List String) (i : Item) : Option (Nat × Option Item) := do
  let (identifier, value) ←
    match i with
    | .entry key value => some (key, some value)
    | .array [identifier, value] => some (identifier, some value)
    | .array _ => none
    | i => some (i, none)
  let position ← position? names identifier
  return (← position, value)

/-- Accepts the value of a variant that has none. -/
def unit? (value : Option Item) : Option Unit :=
  match value.map untagged with
  | none | some .null | some .undefined => some ()
  | _ => none

/-- A variant without a value, by its position. -/
def unitVariant? {α : Type} (variants : List (String × α)) (i : Item) : Option α := do
  let (position, value) ← variant? (variants.map (·.1)) i
  unit? value
  return (← variants[position]?).2

end Concordance.Cbor.Item
