import Concordance.Cbor.Decoding
import Concordance.Cbor.Encoding
import Concordance.Proofs.Bytes

/-!
# Items are read back

Whatever follows the bytes of an item, a reader takes exactly these bytes off the
front and gets the item back. That needs three things of the item: its numbers
and lengths fit into eight bytes, it is not nested deeper than the reader
follows, and a map of one entry is an `entry`, which is the form that a reader
gives it.
-/
namespace Concordance.Cbor

/-- The items that a reader with a depth of nesting gets back from their bytes. -/
inductive Readable : Nat → Item → Prop
  | unsigned {depth value : Nat} (hvalue : value < 2 ^ 64) : Readable depth (.unsigned value)
  | negative {depth value : Nat} (hvalue : value < 2 ^ 64) : Readable depth (.negative value)
  | bytes {depth : Nat} {content : List UInt8} (hlength : content.length < 2 ^ 64) :
      Readable depth (.bytes content)
  | text {depth : Nat} {content : String} (hsize : content.utf8ByteSize < 2 ^ 64) :
      Readable depth (.text content)
  | array {depth : Nat} {items : List Item} (hlength : items.length < 2 ^ 64)
      (hitems : ∀ i ∈ items, Readable depth i) : Readable (depth + 1) (.array items)
  | entry {depth : Nat} {key value : Item} (hkey : Readable depth key)
      (hvalue : Readable depth value) : Readable (depth + 1) (.entry key value)
  | map {depth : Nat} {entries : List (Item × Item)} (hlength : entries.length < 2 ^ 64)
      (hplural : entries.length ≠ 1) (hkeys : ∀ e ∈ entries, Readable depth e.1)
      (hvalues : ∀ e ∈ entries, Readable depth e.2) : Readable (depth + 1) (.map entries)
  | tagged {depth tag : Nat} {content : Item} (htag : tag < 2 ^ 64)
      (hcontent : Readable depth content) : Readable (depth + 1) (.tagged tag content)
  | boolean {depth : Nat} (value : Bool) : Readable depth (.boolean value)
  | null {depth : Nat} : Readable depth .null
  | undefined {depth : Nat} : Readable depth .undefined
  | float {depth : Nat} {content : List UInt8}
      (hlength : content.length = 2 ∨ content.length = 4 ∨ content.length = 8) :
      Readable depth (.float content)

/-- A reader that follows deeper nesting reads more items. -/
theorem Readable.mono {depth depth' : Nat} {i : Item} (h : Readable depth i)
    (hdepth : depth ≤ depth') : Readable depth' i := by
  induction h generalizing depth' with
  | unsigned hvalue => exact .unsigned hvalue
  | negative hvalue => exact .negative hvalue
  | bytes hlength => exact .bytes hlength
  | text hsize => exact .text hsize
  | array hlength _ ih =>
    obtain ⟨inner, rfl⟩ := Nat.exists_eq_add_one_of_ne_zero (by omega : depth' ≠ 0)
    exact .array hlength fun i hi => ih i hi (by omega)
  | entry _ _ ihkey ihvalue =>
    obtain ⟨inner, rfl⟩ := Nat.exists_eq_add_one_of_ne_zero (by omega : depth' ≠ 0)
    exact .entry (ihkey (by omega)) (ihvalue (by omega))
  | map hlength hplural _ _ ihkeys ihvalues =>
    obtain ⟨inner, rfl⟩ := Nat.exists_eq_add_one_of_ne_zero (by omega : depth' ≠ 0)
    exact .map hlength hplural (fun e he => ihkeys e he (by omega))
      fun e he => ihvalues e he (by omega)
  | tagged htag _ ih =>
    obtain ⟨inner, rfl⟩ := Nat.exists_eq_add_one_of_ne_zero (by omega : depth' ≠ 0)
    exact .tagged htag (ih (by omega))
  | boolean value => exact .boolean value
  | null => exact .null
  | undefined => exact .undefined
  | float hlength => exact .float hlength

@[simp] theorem initialByte_div {major info : Nat} (hmajor : major < 8) (hinfo : info < 28) :
    (initialByte major info).toNat / 32 = major := by
  simp only [initialByte, UInt8.toNat_ofNat']
  omega

@[simp] theorem initialByte_mod {major info : Nat} (hinfo : info < 28) :
    (initialByte major info).toNat % 32 = info := by
  simp only [initialByte, UInt8.toNat_ofNat']
  omega

@[simp] theorem exactly_append (content rest : List UInt8) :
    exactly content.length (content ++ rest) = some (content, rest) := by
  induction content with
  | nil => simp [exactly]
  | cons byte content ih => simp [exactly, ih]

/-- The argument of a head in a fixed width is read back. -/
theorem argument_bigEndian {info width n : Nat} (hlow : 24 ≤ info) (hhigh : info < 28)
    (hwidth : Nat.pow 2 (info - 24) = width) (hn : n < 256 ^ width) (rest : List UInt8) :
    argument info (bigEndian width n ++ rest) = some (n, rest) := by
  have hexactly : exactly width (bigEndian width n ++ rest) = some (bigEndian width n, rest) := by
    simpa using exactly_append (bigEndian width n) rest
  rw [argument, if_neg (by omega), if_pos hhigh, hwidth, hexactly]
  simp [ofBigEndian_bigEndian hn]

/-- The head of an item is its initial byte and a list from which the argument is read back. The
additional information of a head is 1 for the argument 1 alone, which is how a map of one entry
under the shortest head is known. -/
theorem exists_head {n : Nat} (major : Nat) (h : n < 2 ^ 64) :
    ∃ info bytes, head major n = initialByte major info :: bytes ∧ info < 28 ∧
      (info = 1 ↔ n = 1) ∧
      ∀ rest, argument info (bytes ++ rest) = some (n, rest) := by
  unfold head
  split
  next hsmall => exact ⟨n, [], rfl, by omega, .rfl, by simp [argument, hsmall]⟩
  split
  next hbyte =>
    exact ⟨24, _, rfl, by omega, by omega,
      argument_bigEndian (by omega) (by omega) rfl (by simpa using hbyte)⟩
  split
  next hbytes =>
    exact ⟨25, _, rfl, by omega, by omega,
      argument_bigEndian (by omega) (by omega) rfl (by simpa using hbytes)⟩
  split
  next hbytes =>
    exact ⟨26, _, rfl, by omega, by omega,
      argument_bigEndian (by omega) (by omega) rfl (by simpa using hbytes)⟩
  · exact ⟨27, _, rfl, by omega, by omega,
      argument_bigEndian (by omega) (by omega) rfl (by simpa using h)⟩

theorem encodeItems_eq_flatMap (items : List Item) : encodeItems items = items.flatMap encode := by
  induction items with
  | nil => rfl
  | cons i items ih => simp [encodeItems, ih]

theorem encodeEntries_eq_flatMap (entries : List (Item × Item)) :
    encodeEntries entries = entries.flatMap encodeEntry := by
  induction entries with
  | nil => rfl
  | cons e entries ih => simp [encodeEntries, ih]

/-- Values that are read back one by one are read back one after another. -/
theorem repeated_flatMap {α : Type} {read : Reader α} {write : α → List UInt8} {values : List α}
    (h : ∀ v ∈ values, ∀ rest, read (write v ++ rest) = some (v, rest)) (rest : List UInt8) :
    repeated read values.length (values.flatMap write ++ rest) = some (values, rest) := by
  induction values with
  | nil => simp [repeated]
  | cons v values ih =>
    simp only [List.forall_mem_cons] at h
    simp [repeated, h.1, ih h.2]

/-- A list whose length stands in the head is read back. -/
theorem sequence_flatMap {α : Type} {read : Reader α} {write : α → List UInt8} {values : List α}
    {info : Nat} {bytes : List UInt8} (hinfo : info < 28)
    (hargument : ∀ rest, argument info (bytes ++ rest) = some (values.length, rest))
    (h : ∀ v ∈ values, ∀ rest, read (write v ++ rest) = some (v, rest)) (rest : List UInt8) :
    sequence info read (bytes ++ (values.flatMap write ++ rest)) = some (values, rest) := by
  rw [sequence, if_neg (by simp only [indefinite]; omega), hargument]
  simp [repeated_flatMap h]

/-- A key and a value that are read back one by one are read back as an entry. -/
theorem both_encodeEntry {read : Reader Item} {e : Item × Item}
    (hkey : ∀ rest, read (encode e.1 ++ rest) = some (e.1, rest))
    (hvalue : ∀ rest, read (encode e.2 ++ rest) = some (e.2, rest)) (rest : List UInt8) :
    both read (encodeEntry e ++ rest) = some (e, rest) := by
  obtain ⟨key, value⟩ := e
  simp [both, encodeEntry, hkey, hvalue]

/-- A string whose length stands in the head is read back. -/
theorem string_append {content : List UInt8} {info : Nat} {bytes : List UInt8} (major : Nat)
    (hinfo : info < 28)
    (hargument : ∀ rest, argument info (bytes ++ rest) = some (content.length, rest))
    (rest : List UInt8) :
    string major info (bytes ++ (content ++ rest)) = some (content, rest) := by
  rw [string, if_neg (by simp only [indefinite]; omega), definiteString, hargument]
  simp

@[simp] theorem text?_toUTF8 (text : String) : text? text.toByteArray.toList = some text := by
  simp only [text?, String.fromUTF8?, toList_eq_data, Array.toArray_toList]
  rw [dif_pos text.isValidUTF8]
  rfl

theorem item_eq_itemWith (depth : Nat) : ∃ inner?, item depth = itemWith inner? := by
  cases depth with
  | zero => exact ⟨_, rfl⟩
  | succ depth => exact ⟨_, rfl⟩

/-- An item is read back from the front of any bytes that start with its own. -/
theorem item_encode {depth : Nat} {i : Item} (h : Readable depth i) (rest : List UInt8) :
    item depth (encode i ++ rest) = some (i, rest) := by
  -- an item inside of another one is followed by its neighbours, so the rest stays open
  induction h generalizing rest with
  | @unsigned depth _ hvalue =>
    obtain ⟨info, bytes, hhead, hinfo, -, hargument⟩ := exists_head 0 hvalue
    obtain ⟨inner?, hitem⟩ := item_eq_itemWith depth
    simp [hitem, encode, hhead, itemWith, hinfo, hargument]
  | @negative depth _ hvalue =>
    obtain ⟨info, bytes, hhead, hinfo, -, hargument⟩ := exists_head 1 hvalue
    obtain ⟨inner?, hitem⟩ := item_eq_itemWith depth
    simp [hitem, encode, hhead, itemWith, hinfo, hargument]
  | @bytes depth _ hlength =>
    obtain ⟨info, bytes, hhead, hinfo, -, hargument⟩ := exists_head 2 hlength
    obtain ⟨inner?, hitem⟩ := item_eq_itemWith depth
    simp [hitem, encode, hhead, itemWith, hinfo, string_append 2 hinfo hargument]
  | @text depth content hsize =>
    obtain ⟨info, bytes, hhead, hinfo, -, hargument⟩ := exists_head 3 hsize
    obtain ⟨inner?, hitem⟩ := item_eq_itemWith depth
    rw [← length_toList_toByteArray content] at hargument
    simp [hitem, encode, hhead, itemWith, hinfo, string_append 3 hinfo hargument]
  | array hlength _ ih =>
    obtain ⟨info, bytes, hhead, hinfo, -, hargument⟩ := exists_head 4 hlength
    simp [item, encode, encodeItems_eq_flatMap, hhead, itemWith, hinfo,
      sequence_flatMap hinfo hargument ih]
  | @entry depth key value _ _ ihkey ihvalue =>
    obtain ⟨info, bytes, hhead, hinfo, hone, hargument⟩ := exists_head 5 (by decide : 1 < 2 ^ 64)
    obtain rfl : info = 1 := hone.2 rfl
    have hvalues : ∀ e ∈ [(key, value)], ∀ rest,
        both (item depth) (encodeEntry e ++ rest) = some (e, rest) := by
      simpa using both_encodeEntry (e := (key, value)) ihkey ihvalue
    have hentry := sequence_flatMap hinfo hargument hvalues rest
    simp only [List.flatMap_singleton, encodeEntry, List.append_assoc] at hentry
    simp [item, encode, hhead, itemWith, hentry]
  | @map depth entries hlength hplural _ _ ihkeys ihvalues =>
    obtain ⟨info, bytes, hhead, hinfo, hone, hargument⟩ := exists_head 5 hlength
    have hinfo' : info ≠ 1 := fun h => hplural (hone.1 h)
    simp [item, encode, encodeEntries_eq_flatMap, hhead, itemWith, hinfo, hinfo',
      sequence_flatMap hinfo hargument fun e he => both_encodeEntry (ihkeys e he) (ihvalues e he)]
  | tagged htag _ ih =>
    obtain ⟨info, bytes, hhead, hinfo, -, hargument⟩ := exists_head 6 htag
    simp [item, encode, hhead, itemWith, hinfo, hargument, ih]
  | @boolean depth value =>
    obtain ⟨inner?, hitem⟩ := item_eq_itemWith depth
    cases value <;> simp [hitem, encode, itemWith, simple]
  | @null depth =>
    obtain ⟨inner?, hitem⟩ := item_eq_itemWith depth
    simp [hitem, encode, itemWith, simple]
  | @undefined depth =>
    obtain ⟨inner?, hitem⟩ := item_eq_itemWith depth
    simp [hitem, encode, itemWith, simple]
  | @float depth content hlength =>
    obtain ⟨inner?, hitem⟩ := item_eq_itemWith depth
    have hexactly := exactly_append content rest
    rcases hlength with hlength | hlength | hlength <;> rw [hlength] at hexactly <;>
      simp [hitem, encode, itemWith, simple, hlength, hexactly]

theorem decode?_encode {i : Item} (h : Readable nestingLimit i) : decode? (encode i) = some i := by
  have hitem := item_encode h []
  rw [List.append_nil] at hitem
  simp [decode?, hitem]

end Concordance.Cbor
