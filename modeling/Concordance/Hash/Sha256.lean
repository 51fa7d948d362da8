import Concordance.Bytes

/-!
# SHA-256

The hash function of FIPS 180-4 on lists of bytes: a message is padded to whole
blocks of 64 bytes, each block is expanded to a schedule of 64 words, and 64
rounds of compression fold the block into a chaining value of eight words.
-/
namespace Concordance.Sha256

/-- The chaining value, and the eight working variables of a round. -/
structure Words where
  a : UInt32
  b : UInt32
  c : UInt32
  d : UInt32
  e : UInt32
  f : UInt32
  g : UInt32
  h : UInt32
deriving DecidableEq

/-- The chaining value before the first block. -/
def initial : Words :=
  ⟨0x6a09e667, 0xbb67ae85, 0x3c6ef372, 0xa54ff53a,
   0x510e527f, 0x9b05688c, 0x1f83d9ab, 0x5be0cd19⟩

/-- The constants of the 64 rounds. -/
def roundConstants : List UInt32 :=
  [0x428a2f98, 0x71374491, 0xb5c0fbcf, 0xe9b5dba5, 0x3956c25b, 0x59f111f1, 0x923f82a4, 0xab1c5ed5,
   0xd807aa98, 0x12835b01, 0x243185be, 0x550c7dc3, 0x72be5d74, 0x80deb1fe, 0x9bdc06a7, 0xc19bf174,
   0xe49b69c1, 0xefbe4786, 0x0fc19dc6, 0x240ca1cc, 0x2de92c6f, 0x4a7484aa, 0x5cb0a9dc, 0x76f988da,
   0x983e5152, 0xa831c66d, 0xb00327c8, 0xbf597fc7, 0xc6e00bf3, 0xd5a79147, 0x06ca6351, 0x14292967,
   0x27b70a85, 0x2e1b2138, 0x4d2c6dfc, 0x53380d13, 0x650a7354, 0x766a0abb, 0x81c2c92e, 0x92722c85,
   0xa2bfe8a1, 0xa81a664b, 0xc24b8b70, 0xc76c51a3, 0xd192e819, 0xd6990624, 0xf40e3585, 0x106aa070,
   0x19a4c116, 0x1e376c08, 0x2748774c, 0x34b0bcb5, 0x391c0cb3, 0x4ed8aa4a, 0x5b9cca4f, 0x682e6ff3,
   0x748f82ee, 0x78a5636f, 0x84c87814, 0x8cc70208, 0x90befffa, 0xa4506ceb, 0xbef9a3f7, 0xc67178f2]

def rotateRight (x amount : UInt32) : UInt32 :=
  (x >>> amount) ||| (x <<< (32 - amount))

/-- Appends the end mark, zeros and the bit length, up to a whole number of blocks. -/
def pad (message : List UInt8) : List UInt8 :=
  message ++ 0x80 :: List.replicate ((119 - message.length % 64) % 64) 0
    ++ bigEndian 8 (message.length * 8)

/-- Big-endian words of a list of bytes; up to three trailing bytes are left out. -/
def words : List UInt8 → List UInt32
  | a :: b :: c :: d :: rest =>
    (a.toUInt32 <<< 24 ||| b.toUInt32 <<< 16 ||| c.toUInt32 <<< 8 ||| d.toUInt32) :: words rest
  | _ => []

/-- One more word of the schedule in front of those already there, latest first. -/
def extend (recent : List UInt32) : List UInt32 :=
  match recent with
  | _ :: w2 :: _ :: _ :: _ :: _ :: w7 :: _ :: _ :: _ :: _ :: _ :: _ :: _ :: w15 :: w16 :: _ =>
    let s0 := rotateRight w15 7 ^^^ rotateRight w15 18 ^^^ (w15 >>> 3)
    let s1 := rotateRight w2 17 ^^^ rotateRight w2 19 ^^^ (w2 >>> 10)
    (w16 + s0 + w7 + s1) :: recent
  | _ => recent

def schedule (block : List UInt32) : List UInt32 :=
  (Nat.repeat extend 48 block.reverse).reverse

/-- One round with its constant and schedule word already added together. -/
def round (s : Words) (input : UInt32) : Words :=
  let s1 := rotateRight s.e 6 ^^^ rotateRight s.e 11 ^^^ rotateRight s.e 25
  let choice := (s.e &&& s.f) ^^^ ((~~~ s.e) &&& s.g)
  let t1 := s.h + s1 + choice + input
  let s0 := rotateRight s.a 2 ^^^ rotateRight s.a 13 ^^^ rotateRight s.a 22
  let majority := (s.a &&& s.b) ^^^ (s.a &&& s.c) ^^^ (s.b &&& s.c)
  ⟨t1 + (s0 + majority), s.a, s.b, s.c, s.d + t1, s.e, s.f, s.g⟩

/-- Folds one block into the chaining value. -/
def compress (s : Words) (block : List UInt32) : Words :=
  let t := (List.zipWith (· + ·) roundConstants (schedule block)).foldl round s
  ⟨s.a + t.a, s.b + t.b, s.c + t.c, s.d + t.d, s.e + t.e, s.f + t.f, s.g + t.g, s.h + t.h⟩

/-- Compresses the first `count` blocks of 16 words. -/
def compressAll (s : Words) : (count : Nat) → List UInt32 → Words
  | 0, _ => s
  | count + 1, ws => compressAll (compress s (ws.take 16)) count (ws.drop 16)

/-- The hash of a message, as a chaining value. -/
def run (message : List UInt8) : Words :=
  let padded := pad message
  compressAll initial (padded.length / 64) (words padded)

/-- The four big-endian bytes of each of the eight words. -/
def Words.bytes (s : Words) : Vector UInt8 32 :=
  let word := #v[s.a, s.b, s.c, s.d, s.e, s.f, s.g, s.h]
  Vector.ofFn fun i => (word[i.val / 4] >>> UInt32.ofNat (24 - 8 * (i.val % 4))).toUInt8

/-- The SHA-256 hash of a message. -/
def hash (message : List UInt8) : Vector UInt8 32 :=
  (run message).bytes

end Concordance.Sha256
