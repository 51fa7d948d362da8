import Concordance.Bytes
import Mathlib.Algebra.Group.Nat.Defs

/-!
# Bytes of numbers and texts

Numbers of a fixed width and texts are told apart by their bytes, and both are
read back from them.
-/
namespace Concordance

/-- Numbers that fit into a width are told apart by their bytes. -/
theorem littleEndian_injective {width a b : Nat} (ha : a < 256 ^ width) (hb : b < 256 ^ width)
    (h : littleEndian width a = littleEndian width b) : a = b := by
  induction width generalizing a b with
  | zero =>
    simp at ha hb
    omega
  | succ width ih =>
    simp only [littleEndian, List.cons.injEq] at h
    rw [Nat.pow_succ] at ha hb
    have hlow : a % 256 = b % 256 := by
      have hbyte := congrArg UInt8.toNat h.1
      simpa using hbyte
    have hhigh : a / 256 = b / 256 := ih (by omega) (by omega) h.2
    omega

/-- A number of a fixed width is read back from the front of a list of bytes. -/
theorem littleEndian_append_injective {width a b : Nat} {rest rest' : List UInt8}
    (ha : a < 256 ^ width) (hb : b < 256 ^ width)
    (h : littleEndian width a ++ rest = littleEndian width b ++ rest') : a = b ∧ rest = rest' := by
  obtain ⟨hnumber, hrest⟩ := List.append_inj h (by simp)
  exact ⟨littleEndian_injective ha hb hnumber, hrest⟩

/-- A number that fits into a width is read back from its bytes. -/
theorem ofBigEndian_bigEndian {width n : Nat} (hn : n < 256 ^ width) :
    ofBigEndian (bigEndian width n) = n := by
  simp only [ofBigEndian, bigEndian, List.foldl_reverse]
  induction width generalizing n with
  | zero =>
    simp at hn
    simp [littleEndian, hn]
  | succ width ih =>
    rw [Nat.pow_succ] at hn
    simp only [littleEndian, List.foldr_cons, ih (by omega : n / 256 < 256 ^ width)]
    have hlow : (UInt8.ofNat n).toNat = n % 256 := by simp
    omega

theorem toList_loop (bytes : ByteArray) (i : Nat) (read : List UInt8) :
    ByteArray.toList.loop bytes i read = read.reverse ++ bytes.data.toList.drop i := by
  fun_induction ByteArray.toList.loop bytes i read with
  | case1 i read hi ih =>
    have hlength : i < bytes.data.toList.length := by simpa using hi
    have hget : bytes.get! i = bytes.data.toList[i] := by
      simp [ByteArray.get!, hi]
    rw [ih, List.drop_eq_getElem_cons hlength, hget]
    simp
  | case2 i read hi =>
    have hlength : bytes.data.toList.length ≤ i := by simpa using hi
    simp [List.drop_eq_nil_of_le hlength]

theorem toList_eq_data (bytes : ByteArray) : bytes.toList = bytes.data.toList := by
  simp [ByteArray.toList, toList_loop]

@[simp] theorem length_toList_toByteArray (text : String) :
    text.toByteArray.toList.length = text.utf8ByteSize := by
  simp [toList_eq_data]

theorem toUTF8_injective {text text' : String} (h : text.toUTF8.toList = text'.toUTF8.toList) :
    text = text' := by
  rw [toList_eq_data, toList_eq_data, Array.toList_inj] at h
  exact String.toByteArray_inj.1 (ByteArray.ext h)

end Concordance
