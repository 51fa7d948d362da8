import Concordance.Bytes
import Concordance.Cbor.Item

/-!
# Writing CBOR

Assumed of the library that writes the bytes is the shortest form of every item:
every number takes the fewest bytes, and strings, arrays and maps have a definite
length.
-/
namespace Concordance.Cbor

/-- The first byte of an item: its major type and the additional information. -/
def initialByte (major info : Nat) : UInt8 :=
  UInt8.ofNat (major * 32 + info)

/-- The head of an item with an argument. -/
def head (major argument : Nat) : List UInt8 :=
  if argument < 24 then [initialByte major argument]
  else if argument < Nat.pow 2 8 then initialByte major 24 :: bigEndian 1 argument
  else if argument < Nat.pow 2 16 then initialByte major 25 :: bigEndian 2 argument
  else if argument < Nat.pow 2 32 then initialByte major 26 :: bigEndian 4 argument
  else initialByte major 27 :: bigEndian 8 argument

mutual

def encode : Item → List UInt8
  | .unsigned value => head 0 value
  | .negative value => head 1 value
  | .bytes content => head 2 content.length ++ content
  | .text content => head 3 content.utf8ByteSize ++ content.toUTF8.toList
  | .array items => head 4 items.length ++ encodeItems items
  | .entry key value => head 5 1 ++ (encode key ++ encode value)
  | .map entries => head 5 entries.length ++ encodeEntries entries
  | .tagged tag content => head 6 tag ++ encode content
  | .boolean false => [initialByte 7 20]
  | .boolean true => [initialByte 7 21]
  | .null => [initialByte 7 22]
  | .undefined => [initialByte 7 23]
  | .float content =>
    initialByte 7 (if content.length = 2 then 25 else if content.length = 4 then 26 else 27)
      :: content
termination_by structural item => item

def encodeItems : List Item → List UInt8
  | [] => []
  | item :: items => encode item ++ encodeItems items
termination_by structural items => items

def encodeEntries : List (Item × Item) → List UInt8
  | [] => []
  | entry :: entries => encodeEntry entry ++ encodeEntries entries
termination_by structural entries => entries

/-- The bytes of an entry: its key, then its value. -/
def encodeEntry : Item × Item → List UInt8
  | (key, value) => encode key ++ encode value
termination_by structural entry => entry

end

end Concordance.Cbor
