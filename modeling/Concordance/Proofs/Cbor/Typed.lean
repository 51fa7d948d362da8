import Concordance.Cbor.Schema
import Concordance.Proofs.Cbor.Reading
import Mathlib.Algebra.Group.Int.Defs

/-!
# Typed values are read back

What a value is written as has to be readable from bytes, and the reader of its
type has to take it for the same value again. `Means` says both of an item, and
every way of writing a value has a lemma that gives it: numbers, texts, optional
values, lists, records and variants.
-/
namespace Concordance.Cbor

/-- An item that is read back from bytes, and that the reader of a type takes for a value. -/
structure Means {α : Type} (depth : Nat) (read : Item → Option α) (i : Item) (v : α) : Prop where
  readable : Readable depth i
  value : read i = some v

namespace Item

/-- Names that tell the fields of a record apart, as far as lengths fit into eight bytes. -/
def Named (names : List String) : Prop :=
  names.length < 2 ^ 64 ∧ names.Nodup ∧ ∀ name ∈ names, name.utf8ByteSize < 2 ^ 64

instance (names : List String) : Decidable (Named names) := by
  unfold Named
  infer_instance

/-- A variant is known by the position of its name. -/
theorem variant?_variant (names : List String) (name : String) (i : Item) :
    variant? names (.variant name i) = (names.idxOf? name).map fun k => (k, some i) := by
  cases h : names.idxOf? name <;> simp [variant?, variant, position?, untagged, h]

theorem idxOf?_append_cons {done todo : List String} {name : String}
    (h : (done ++ name :: todo).Nodup) :
    (done ++ name :: todo).idxOf? name = some done.length := by
  have hnotMem : name ∉ done := fun hmem => (List.nodup_append.1 h).2.2 name hmem name (by simp) rfl
  rw [List.idxOf?_eq_some_iff]
  refine ⟨by simp, by simp, fun j hj heq => hnotMem ?_⟩
  rw [List.getElem_append_left hj] at heq
  exact heq ▸ List.getElem_mem hj

/-- The entries of a record fill one slot after another: the slots of the fields before stay, and
those of the fields behind are still empty. -/
theorem foldlM_fill (done todo : List (String × Item))
    (h : ((done ++ todo).map Prod.fst).Nodup) :
    (todo.map fun f => (Item.text f.1, f.2)).foldlM (fill ((done ++ todo).map Prod.fst))
        (done.map (fun f => some f.2) ++ todo.map fun _ => none) =
      some ((done ++ todo).map fun f => some f.2) := by
  induction todo generalizing done with
  | nil => simp
  | cons f todo ih =>
    have hposition := idxOf?_append_cons (by simpa using h)
    have hnext := ih (done ++ [f]) (by simpa using h)
    simp only [List.append_assoc, List.singleton_append, List.map_append, List.map_cons,
      List.map_nil] at hnext ⊢
    simpa [fill, position?, untagged, hposition] using hnext

theorem fields?_record {fields : List (String × Item)} (h : (fields.map Prod.fst).Nodup) :
    fields? (fields.map Prod.fst) (.record fields) = some (fields.map fun f => some f.2) := by
  have hfill := foldlM_fill [] fields (by simpa using h)
  -- a record of one field is an entry
  match fields with
  | [] => rfl
  | [f] => simpa [fields?, slots?, record, untagged] using hfill
  | f :: f' :: fields => simpa [fields?, slots?, record, untagged, Function.comp_def] using hfill

theorem readable_record {depth : Nat} {fields : List (String × Item)}
    (h : Named (fields.map Prod.fst)) (hfields : ∀ f ∈ fields, Readable depth f.2) :
    Readable (depth + 1) (.record fields) := by
  obtain ⟨hlength, -, hsizes⟩ := h
  have hkeys : ∀ f ∈ fields, Readable depth (.text f.1) := fun f hf =>
    .text (hsizes f.1 (List.mem_map_of_mem hf))
  match fields with
  | [] => exact .map (by simp) (by simp) (by simp) (by simp)
  | [f] => exact .entry (hkeys f (by simp)) (hfields f (by simp))
  | f :: f' :: fields =>
    refine .map (by simpa using hlength) (by simp) (fun e he => ?_) fun e he => ?_
    · obtain ⟨g, hg, rfl⟩ := List.mem_map.1 he
      exact hkeys g hg
    · obtain ⟨g, hg, rfl⟩ := List.mem_map.1 he
      exact hfields g hg

end Item

namespace Means

variable {α : Type} {depth : Nat} {read : Item → Option α}

theorem mono {depth' : Nat} {i : Item} {v : α} (h : Means depth read i v)
    (hdepth : depth ≤ depth') : Means depth' read i v :=
  ⟨h.readable.mono hdepth, h.value⟩

theorem natBelow {bound n : Nat} (hn : n < bound) (hbound : bound ≤ 2 ^ 64) :
    Means depth (Item.natBelow? bound) (.unsigned n) n :=
  ⟨.unsigned (by omega), by simp [Item.natBelow?, Item.untagged, hn]⟩

theorem index {n : Nat} (hn : n < 2 ^ 32) : Means depth Item.index? (.unsigned n) n :=
  natBelow hn (by decide)

theorem size {n : Nat} (hn : n < 2 ^ 64) : Means depth Item.size? (.unsigned n) n :=
  natBelow hn (by decide)

theorem signed {bits : Nat} {n : Int} (hlow : -2 ^ (bits - 1) ≤ n) (hhigh : n < 2 ^ (bits - 1))
    (hbits : bits ≤ 64) : Means depth (Item.signed? bits) (.ofInt n) n := by
  have hpow : 2 ^ (bits - 1) ≤ 2 ^ 63 := Nat.pow_le_pow_right (by decide) (by omega)
  have hcast : ((2 ^ (bits - 1) : Nat) : Int) = 2 ^ (bits - 1) := by simp
  cases n with
  | ofNat n =>
    rw [Int.ofNat_eq_natCast] at hhigh
    have hn : n < 2 ^ (bits - 1) := by omega
    exact ⟨.unsigned (by omega), by simp [Item.signed?, Item.ofInt, Item.untagged, hn]⟩
  | negSucc n =>
    have hn : n < 2 ^ (bits - 1) := by omega
    exact ⟨.negative (by omega), by simp [Item.signed?, Item.ofInt, Item.untagged, hn]⟩

theorem bool (b : Bool) : Means depth Item.bool? (.boolean b) b :=
  ⟨.boolean b, by simp [Item.bool?, Item.untagged]⟩

theorem string {text : String} (h : text.utf8ByteSize < 2 ^ 64) :
    Means depth Item.string? (.text text) text :=
  ⟨.text h, by simp [Item.string?, Item.untagged]⟩

/-- An optional value is read back if no value is written as a null. -/
theorem option {write : α → Item} {o : Option α} (hnull : ∀ v, write v ≠ .null)
    (h : ∀ v ∈ o, Means depth read (write v) v) :
    Means depth (Item.option? read) (.ofOption write o) o := by
  cases o with
  | none => exact ⟨.null, rfl⟩
  | some v =>
    have hv := h v rfl
    exact ⟨hv.readable, by simp [Item.ofOption, Item.option?, hv.value, hnull]⟩

theorem list {write : α → Item} {values : List α} (hlength : values.length < 2 ^ 64)
    (h : ∀ v ∈ values, Means depth read (write v) v) :
    Means (depth + 1) (Item.list? read) (.ofList write values) values := by
  refine ⟨.array (by simpa using hlength) fun i hi => ?_, ?_⟩
  · obtain ⟨v, hv, rfl⟩ := List.mem_map.1 hi
    exact (h v hv).readable
  · simp only [Item.list?, Item.ofList, Item.untagged]
    induction values with
    | nil => rfl
    | cons v values ih =>
      have hvalues := ih (by simp at hlength; omega) fun w hw => h w (by simp [hw])
      simp [(h v (by simp)).value, hvalues]

theorem variant {name : String} {i : Item} {v : α} (hname : name.utf8ByteSize < 2 ^ 64)
    (hi : Readable depth i) (hread : read (.variant name i) = some v) :
    Means (depth + 1) read (.variant name i) v :=
  ⟨.entry (.text hname) hi, hread⟩

theorem record {names : List String} {fields : List (String × Item)} {v : α}
    (hnames : Item.Named names) (hfields : fields.map Prod.fst = names)
    (hreadable : ∀ f ∈ fields, Readable depth f.2)
    (hread : Item.fields? names (.record fields) = some (fields.map fun f => some f.2) →
      read (.record fields) = some v) :
    Means (depth + 1) read (.record fields) v := by
  subst hfields
  exact ⟨Item.readable_record hnames hreadable, hread (Item.fields?_record hnames.2.1)⟩

/-- A variant with a record as its value is read back if the fields are. -/
theorem recordVariant {name : String} {names : List String} {fields : List (String × Item)} {v : α}
    (hname : name.utf8ByteSize < 2 ^ 64) (hnames : Item.Named names)
    (hfields : fields.map Prod.fst = names) (hreadable : ∀ f ∈ fields, Readable depth f.2)
    (hread : Item.fields? names (.record fields) = some (fields.map fun f => some f.2) →
      read (.variant name (.record fields)) = some v) :
    Means (depth + 2) read (.variant name (.record fields)) v := by
  subst hfields
  exact .variant hname (Item.readable_record hnames hreadable)
    (hread (Item.fields?_record hnames.2.1))

end Means
end Concordance.Cbor
