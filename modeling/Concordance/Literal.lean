import Concordance.Decimal.Shortest
import Concordance.Text.Quoted

/-!
# Literal values

The values that a leaf of a definition may assert. Floating-point numbers are
kept as bit patterns, so that equality and order of literals are decidable, and
`Literal.ofFloatBits` brings a pattern into canonical form: both zeros become
positive zero and every NaN becomes the same NaN.
-/
namespace Concordance

inductive Literal
  | boolean (value : Bool)
  | integer (value : Int64)
  | float (bits : UInt64)
  | text (value : String)
deriving DecidableEq

namespace Literal

def isNaN (bits : UInt64) : Bool :=
  0x7ff0000000000000 < (bits &&& 0x7fffffffffffffff)

/-- Whether a binary64 bit pattern is a zero of either sign. -/
def isZero (bits : UInt64) : Bool :=
  bits &&& 0x7fffffffffffffff == 0

/-- The literal of a binary64 number, in canonical form. -/
def ofFloatBits (bits : UInt64) : Literal :=
  if isZero bits then .float 0
  else if isNaN bits then .float 0x7ff8000000000000
  else .float bits

def floatBits? : Literal → Option UInt64
  | .float bits => some bits
  | _ => none

def display : Literal → String
  | .boolean true => "true"
  | .boolean false => "false"
  | .integer value => toString value.toInt
  | .float bits => Decimal.ofBits bits
  | .text value => Text.quoted value

/-- Position of a literal's type in the order of types. -/
def rank : Literal → Nat
  | .boolean _ => 0
  | .integer _ => 1
  | .float _ => 2
  | .text _ => 3

/-- Literals are ordered by type, then by value; floating-point numbers by their bits as
an unsigned number, texts by code points. -/
def le : Literal → Literal → Bool
  | .boolean a, .boolean b => !a || b
  | .integer a, .integer b => decide (a.toInt ≤ b.toInt)
  | .float a, .float b => decide (a.toNat ≤ b.toNat)
  | .text a, .text b => decide (a ≤ b)
  | a, b => decide (a.rank ≤ b.rank)

end Literal
end Concordance
