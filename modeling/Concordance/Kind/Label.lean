import Concordance.Bytes
import Concordance.Kind

/-!
# Labels of kinds

A label is the kind of a node with its payload as bytes: one byte for the kind,
then the payload, every number in a fixed width and a text behind its length.
-/
namespace Concordance

/-- The bytes of a literal: one for its type, then its value. -/
def Literal.label : Literal → List UInt8
  | .boolean value => [0x00, if value then 1 else 0]
  | .integer value => 0x01 :: littleEndian 8 value.toUInt64.toNat
  | .float bits => 0x02 :: littleEndian 8 bits.toNat
  | .text value => 0x03 :: (littleEndian 8 value.utf8ByteSize ++ value.toUTF8.toList)

def Kind.label : Kind → List UInt8
  | .root => [0x01]
  | .necessarySet => [0x02]
  | .sufficientSet => [0x03]
  | .propertySet => [0x04]
  | .conjunction => [0x10]
  | .disjunction => [0x11]
  | .disjointWith => [0x12]
  | .existential role => 0x20 :: littleEndian 4 role.toUInt32.toNat
  | .universal role => 0x21 :: littleEndian 4 role.toUInt32.toNat
  | .concept key => 0x30 :: littleEndian 4 key.toUInt32.toNat
  | .literal value => 0x31 :: value.label

end Concordance
