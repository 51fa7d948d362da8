/-!
# Numbers as bytes

Fixed-width big-endian and little-endian forms of natural numbers. A number
that does not fit keeps its low bytes.
-/
namespace Concordance

/-- The `width` low bytes of a number, least significant byte first. -/
def littleEndian : (width : Nat) → Nat → List UInt8
  | 0, _ => []
  | width + 1, n => UInt8.ofNat n :: littleEndian width (n / 256)

/-- The `width` low bytes of a number, most significant byte first. -/
def bigEndian (width n : Nat) : List UInt8 :=
  (littleEndian width n).reverse

/-- The number whose big-endian form is the given list. -/
def ofBigEndian (bytes : List UInt8) : Nat :=
  bytes.foldl (fun n byte => n * 256 + byte.toNat) 0

@[simp] theorem length_littleEndian (width n : Nat) : (littleEndian width n).length = width := by
  induction width generalizing n with
  | zero => rfl
  | succ width ih => simp [littleEndian, ih]

@[simp] theorem length_bigEndian (width n : Nat) : (bigEndian width n).length = width := by
  simp [bigEndian]

def hexByte (byte : UInt8) : List Char :=
  [Nat.digitChar (byte.toNat / 16), Nat.digitChar (byte.toNat % 16)]

def hexText (bytes : List UInt8) : String :=
  String.ofList (bytes.flatMap hexByte)

end Concordance
