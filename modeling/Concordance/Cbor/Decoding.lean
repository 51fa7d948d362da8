import Concordance.Bytes
import Concordance.Cbor.Item

/-!
# Reading CBOR

A reader takes an item off the front of a list of bytes. Which bytes make an item
is up to the library that reads them, and what is read here is what is assumed of
it. Numbers may be written in any width. Arrays, maps and strings may also have an
indefinite length, up to a break; the chunks of such a string are definite strings
of the same type. Text has to be UTF-8. Of the simple values there are the two
truth values, null and undefined. Arrays, maps and tags may be nested up to a
fixed depth, and nothing may stand behind the item.
-/
namespace Concordance.Cbor

/-- Takes a value off the front of a list of bytes; none if there is no well-formed one. -/
abbrev Reader (α : Type) := List UInt8 → Option (α × List UInt8)

/-- Reads a number of bytes as they are. -/
def exactly : Nat → Reader (List UInt8)
  | 0, bytes => some ([], bytes)
  | _ + 1, [] => none
  | count + 1, byte :: bytes =>
    match exactly count bytes with
    | none => none
    | some (content, rest) => some (byte :: content, rest)

def repeated {α : Type} (read : Reader α) : Nat → Reader (List α)
  | 0, bytes => some ([], bytes)
  | count + 1, bytes => do
    let (value, rest) ← read bytes
    let (values, rest) ← repeated read count rest
    return (value :: values, rest)

/-- Reads values up to a break, at most the given number of them. -/
def untilBreak {α : Type} (read : Reader α) : Nat → Reader (List α)
  | 0, _ => none
  | limit + 1, bytes =>
    if bytes.head? = some 0xff then some ([], bytes.tail)
    else do
      let (value, rest) ← read bytes
      let (values, rest) ← untilBreak read limit rest
      return (value :: values, rest)

def both {α : Type} (read : Reader α) : Reader (α × α) := fun bytes => do
  let (first, rest) ← read bytes
  let (second, rest) ← read rest
  return ((first, second), rest)

/-- Additional information that stands for an indefinite length. -/
def indefinite : Nat := 31

/-- Reads the argument that the additional information of a head announces. -/
def argument (info : Nat) : Reader Nat := fun bytes =>
  if info < 24 then some (info, bytes)
  else if info < 28 then
    (exactly (Nat.pow 2 (info - 24)) bytes).map fun read => (ofBigEndian read.1, read.2)
  else none

/-- Reads a list of values: as many as the head announces, or up to a break. -/
def sequence {α : Type} (info : Nat) (read : Reader α) : Reader (List α) := fun bytes =>
  if info = indefinite then untilBreak read (bytes.length + 1) bytes
  else do
    let (count, rest) ← argument info bytes
    repeated read count rest

def definiteString (info : Nat) : Reader (List UInt8) := fun bytes => do
  let (length, rest) ← argument info bytes
  exactly length rest

def chunk (major : Nat) : Reader (List UInt8) := fun bytes =>
  match bytes with
  | [] => none
  | initial :: rest =>
    if initial.toNat / 32 = major then definiteString (initial.toNat % 32) rest else none

/-- Reads the content of a string of the given major type. -/
def string (major info : Nat) : Reader (List UInt8) := fun bytes =>
  if info = indefinite then
    (untilBreak (chunk major) (bytes.length + 1) bytes).map fun read => (read.1.flatten, read.2)
  else definiteString info bytes

def text? (content : List UInt8) : Option String :=
  String.fromUTF8? ⟨content.toArray⟩

/-- Reads an item of major type 7: a simple value or a floating-point number. -/
def simple (info : Nat) : Reader Item := fun bytes =>
  match info with
  | 20 => some (.boolean false, bytes)
  | 21 => some (.boolean true, bytes)
  | 22 => some (.null, bytes)
  | 23 => some (.undefined, bytes)
  | 25 => (exactly 2 bytes).map fun read => (.float read.1, read.2)
  | 26 => (exactly 4 bytes).map fun read => (.float read.1, read.2)
  | 27 => (exactly 8 bytes).map fun read => (.float read.1, read.2)
  | _ => none

/-- Reads an item; items inside of it are left to another reader, if nesting is still allowed. -/
def itemWith (inner? : Option (Reader Item)) : Reader Item
  | [] => none
  | initial :: bytes => do
    let info := initial.toNat % 32
    match initial.toNat / 32 with
    | 0 => (argument info bytes).map fun read => (.unsigned read.1, read.2)
    | 1 => (argument info bytes).map fun read => (.negative read.1, read.2)
    | 2 => (string 2 info bytes).map fun read => (.bytes read.1, read.2)
    | 3 =>
      let (content, rest) ← string 3 info bytes
      let text ← text? content
      return (.text text, rest)
    | 4 =>
      let inner ← inner?
      (sequence info inner bytes).map fun read => (.array read.1, read.2)
    | 5 =>
      let inner ← inner?
      let (entries, rest) ← sequence info (both inner) bytes
      match info, entries with
      | 1, [(key, value)] => return (.entry key value, rest)
      | _, _ => return (.map entries, rest)
    | 6 =>
      let inner ← inner?
      let (tag, rest) ← argument info bytes
      let (content, rest) ← inner rest
      return (.tagged tag content, rest)
    | _ => simple info bytes

/-- Reads an item with at most the given depth of nesting. -/
def item : (depth : Nat) → Reader Item
  | 0 => itemWith none
  | depth + 1 => itemWith (some (item depth))

/-- How deep arrays, maps and tags may be nested. -/
def nestingLimit : Nat := 127

/-- The item that a list of bytes consists of. -/
def decode? (bytes : List UInt8) : Option Item :=
  match item nestingLimit bytes with
  | some (item, []) => some item
  | _ => none

end Concordance.Cbor
