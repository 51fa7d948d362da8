import Concordance.Hash.Sha256

/-!
# Digests with separated domains

A digest is the SHA-256 hash of a message that names the domain it was taken in
and the length of its data before the data itself. The message is a definition
of its own, so that what is hashed can be studied apart from the hash function.
-/
namespace Concordance

/-- A 256-bit hash value. -/
structure Digest where
  bytes : Vector UInt8 32
deriving DecidableEq

namespace Digest

def zero : Digest :=
  ⟨Vector.replicate 32 0⟩

def toList (d : Digest) : List UInt8 :=
  d.bytes.toList

/-- Digests are ordered byte by byte. -/
def le (d e : Digest) : Bool :=
  decide (d.toList ≤ e.toList)

/-- The bytes of a text in UTF-8. -/
def utf8 (text : String) : List UInt8 :=
  text.toUTF8.toList

/-- What is hashed for data in a domain: the domain between two fixed marks, the
length of the data as eight little-endian bytes, and the data. -/
def message (domain data : List UInt8) : List UInt8 :=
  utf8 "SWF:" ++ domain ++ utf8 ":v1" ++ littleEndian 8 data.length ++ data

/-- The digest of data in a domain. -/
def ofDomain (domain data : List UInt8) : Digest :=
  ⟨Sha256.hash (message domain data)⟩

def hex (d : Digest) : String :=
  hexText d.toList

/-- The first four bytes in hexadecimal: enough to tell nodes apart in a dump. -/
def short (d : Digest) : String :=
  hexText (d.toList.take 4) ++ "…"

@[simp] theorem length_toList (d : Digest) : d.toList.length = 32 := by
  simp [toList]

end Digest
end Concordance
