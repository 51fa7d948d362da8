import Concordance.Proofs.Bytes
import Concordance.Proofs.Signature
import Mathlib.Data.List.Perm.Basic
import Mathlib.Tactic.Cases

/-!
# What a signature says

The content that is hashed for a node can be read back: its label ends where the
kind says, the child count has a fixed width, and the signatures behind it are
equally long. So equal contents come from equal kinds and from the same child
signatures in any order, and signatures tell subtrees apart up to the order of
children, as far as different contents have different digests.
-/
namespace Concordance

namespace Literal

/-- Literals whose text, if they are one, has a length that eight bytes can hold. -/
def Fits : Literal → Prop
  | .text value => value.utf8ByteSize < 2 ^ 64
  | _ => True

instance (v : Literal) : Decidable v.Fits := by
  unfold Fits
  split <;> infer_instance

/-- The label of a literal is read back from the front of a list of bytes. -/
theorem label_append_injective {v v' : Literal} {rest rest' : List UInt8} (hv : v.Fits)
    (hv' : v'.Fits) (h : v.label ++ rest = v'.label ++ rest') : v = v' ∧ rest = rest' := by
  -- the first byte tells the types apart
  cases v <;> cases v' <;> simp [label] at h ⊢
  case boolean.boolean value value' =>
    cases value <;> cases value' <;> simp at h ⊢ <;> exact h
  case integer.integer value value' =>
    obtain ⟨hnumber, hrest⟩ := littleEndian_append_injective
      (UInt64.toNat_lt _) (UInt64.toNat_lt _) h
    have hvalue : value.toUInt64 = value'.toUInt64 := UInt64.toNat_inj.1 hnumber
    cases value
    cases value'
    simp_all
  case float.float bits bits' =>
    obtain ⟨hnumber, hrest⟩ := littleEndian_append_injective
      (UInt64.toNat_lt _) (UInt64.toNat_lt _) h
    exact ⟨UInt64.toNat_inj.1 hnumber, hrest⟩
  case text.text value value' =>
    obtain ⟨hsize, hrest⟩ := littleEndian_append_injective hv hv' h
    obtain ⟨htext, hrest⟩ := List.append_inj hrest (by simpa using hsize)
    exact ⟨toUTF8_injective htext, hrest⟩

end Literal

theorem key_append_injective {key key' : Key} {rest rest' : List UInt8}
    (h : littleEndian 4 key.toUInt32.toNat ++ rest = littleEndian 4 key'.toUInt32.toNat ++ rest') :
    key = key' ∧ rest = rest' := by
  obtain ⟨hnumber, hrest⟩ := littleEndian_append_injective
    (UInt32.toNat_lt _) (UInt32.toNat_lt _) h
  have hvalue : key.toUInt32 = key'.toUInt32 := UInt32.toNat_inj.1 hnumber
  cases key
  cases key'
  simp_all

namespace Kind

/-- Kinds without payload, with a key, or with a literal that fits. -/
def Fits : Kind → Prop
  | .literal value => value.Fits
  | _ => True

instance (k : Kind) : Decidable k.Fits := by
  unfold Fits
  split <;> infer_instance

theorem label_append_injective {k k' : Kind} {rest rest' : List UInt8} (hk : k.Fits)
    (hk' : k'.Fits) (h : k.label ++ rest = k'.label ++ rest') : k = k' ∧ rest = rest' := by
  -- the first byte tells the kinds apart
  cases k <;> cases k' <;> simp [label] at h ⊢
  case existential.existential => exact key_append_injective h
  case universal.universal => exact key_append_injective h
  case concept.concept => exact key_append_injective h
  case literal.literal => exact Literal.label_append_injective hk hk' h
  all_goals exact h

end Kind

namespace Digest

variable {d d' : Digest}

theorem toList_injective (h : d.toList = d'.toList) : d = d' := by
  cases d
  cases d'
  simpa [toList, Vector.toList_inj] using h

theorem le_total (d d' : Digest) : d.le d' = true ∨ d'.le d = true := by
  simpa [le] using List.le_total d.toList d'.toList

theorem le_trans (d d' d'' : Digest) (h : d.le d' = true) (h' : d'.le d'' = true) :
    d.le d'' = true := by
  simp only [le, decide_eq_true_eq] at *
  exact List.le_trans h h'

theorem le_antisymm (h : d.le d' = true) (h' : d'.le d = true) : d = d' := by
  simp only [le, decide_eq_true_eq] at *
  exact toList_injective (List.le_antisymm h h')

/-- Digests in sorted order do not depend on the order they were given in. -/
theorem sortBy_eq_iff {ds ds' : List Digest} : sortBy le ds = sortBy le ds' ↔ ds.Perm ds' := by
  constructor
  · intro h
    exact (sortBy_perm le ds).symm.trans (h ▸ sortBy_perm le ds')
  · intro h
    exact sortBy_eq_of_perm le_total le_trans (fun _ _ => le_antisymm) h

/-- The bytes of several digests determine the digests, which are equally long. -/
theorem flatMap_toList_injective {ds ds' : List Digest}
    (h : ds.flatMap toList = ds'.flatMap toList) : ds = ds' := by
  induction ds generalizing ds' with
  | nil =>
    cases ds' with
    | nil => rfl
    | cons d' ds' =>
      have hlength := congrArg List.length h
      simp at hlength
      omega
  | cons d ds ih =>
    cases ds' with
    | nil =>
      have hlength := congrArg List.length h
      simp at hlength
    | cons d' ds' =>
      rw [List.flatMap_cons, List.flatMap_cons] at h
      obtain ⟨hfirst, hrest⟩ := List.append_inj h (by simp)
      rw [toList_injective hfirst, ih hrest]

end Digest

namespace Signature

variable {k k' : Kind} {children children' : List Signature}

/-- The order of children is no part of the content. -/
theorem content_of_perm (k : Kind) (h : children.Perm children') :
    content k children = content k children' := by
  rw [content, content, h.length_eq, Digest.sortBy_eq_iff.2 h]

/-- Contents are equal for equal kinds over the same child signatures only, in whatever order. -/
theorem content_eq_iff (hk : k.Fits) (hk' : k'.Fits) :
    content k children = content k' children' ↔ k = k' ∧ children.Perm children' := by
  constructor
  · intro h
    simp only [content, List.append_assoc] at h
    obtain ⟨hkind, hrest⟩ := Kind.label_append_injective hk hk' h
    obtain ⟨-, hdigests⟩ := List.append_inj hrest (by simp)
    exact ⟨hkind, Digest.sortBy_eq_iff.1 (Digest.flatMap_toList_injective hdigests)⟩
  · rintro ⟨rfl, hchildren⟩
    exact content_of_perm k hchildren

end Signature

namespace Expression

variable {e e' : Expression} {a b : Nat}

/-- Two subtrees are equal up to the order of children: their tops have one kind, and the children
of the tops are the tops of equal subtrees again, in some order. -/
inductive SameContent (e e' : Expression) : Nat → Nat → Prop
  | node {a b : Nat} {k : Kind} (partner : Nat → Nat) (hkind : e.kind? a = some k)
      (hkind' : e'.kind? b = some k)
      (hchildren : ((e.children a).map partner).Perm (e'.children b))
      (hbelow : ∀ x ∈ e.children a, SameContent e e' x (partner x)) : SameContent e e' a b

def signaturesBelow (e : Expression) (n : Nat) : List Signature :=
  (e.children n).map fun c => ((SignatureTable.ofExpression e).get? c).getD Digest.zero

/-- What is hashed for a node. -/
def hashed? (e : Expression) (n : Nat) : Option (List UInt8) :=
  (e.kind? n).map fun k => Signature.content k (e.signaturesBelow n)

/-- All texts of an expression have lengths that eight bytes can hold. -/
def Fits (e : Expression) : Prop :=
  ∀ n < e.size, ∀ k ∈ e.kind? n, k.Fits

/-- Different contents of nodes of the two expressions have different digests. -/
def DigestsApart (e e' : Expression) : Prop :=
  ∀ a < e.size, ∀ b < e'.size,
    (e.hashed? a).map (Digest.ofDomain Signature.domain) =
        (e'.hashed? b).map (Digest.ofDomain Signature.domain) →
      e.hashed? a = e'.hashed? b

instance (e : Expression) : Decidable e.Fits :=
  inferInstanceAs (Decidable (∀ n < e.size, ∀ k ∈ e.kind? n, k.Fits))

theorem get?_eq_ofNode {k : Kind} (hk : e.kind? a = some k) :
    (SignatureTable.ofExpression e).get? a = some (Signature.ofNode k (e.signaturesBelow a)) :=
  SignatureTable.get?_ofExpression hk

theorem get?_eq_hashed? (ha : a < e.size) : (SignatureTable.ofExpression e).get? a =
    (e.hashed? a).map (Digest.ofDomain Signature.domain) := by
  obtain ⟨k, hk⟩ := exists_kind? ha
  simp [hashed?, hk, get?_eq_ofNode hk, Signature.ofNode]

theorem digestsApart_iff : DigestsApart e e' ↔ ∀ a < e.size, ∀ b < e'.size,
    (SignatureTable.ofExpression e).get? a = (SignatureTable.ofExpression e').get? b →
      e.hashed? a = e'.hashed? b := by
  constructor <;> intro h a ha b hb hget
  · exact h a ha b hb (by simpa only [get?_eq_hashed?, ha, hb] using hget)
  · exact h a ha b hb (by simpa only [get?_eq_hashed?, ha, hb] using hget)

-- decided over the tables, so that every node is hashed once
instance (e e' : Expression) : Decidable (DigestsApart e e') :=
  decidable_of_iff _ digestsApart_iff.symm

/-- Subtrees that are equal up to the order of children have equal signatures. -/
theorem SameContent.get?_eq (h : SameContent e e' a b) :
    (SignatureTable.ofExpression e).get? a = (SignatureTable.ofExpression e').get? b := by
  induction h with
  | @node a b k partner hkind hkind' hchildren _ ih =>
    have hsignatures : (e.signaturesBelow a).Perm (e'.signaturesBelow b) := by
      have hpartners : e.signaturesBelow a = ((e.children a).map partner).map
          fun c => ((SignatureTable.ofExpression e').get? c).getD Digest.zero := by
        rw [signaturesBelow, List.map_map]
        apply List.map_congr_left
        intro x hx
        simp [ih x hx]
      rw [hpartners]
      exact hchildren.map _
    rw [get?_eq_ofNode hkind, get?_eq_ofNode hkind', Signature.ofNode,
      Signature.content_of_perm k hsignatures, Signature.ofNode]

theorem childSignatures_eq (e : Expression) (n : Nat) :
    (SignatureTable.ofExpression e).childSignatures e n = (e.signaturesBelow n).map some := by
  rw [SignatureTable.childSignatures, signaturesBelow, List.map_map]
  apply List.map_congr_left
  intro c hc
  obtain ⟨s, hs⟩ := SignatureTable.exists_get? (lt_size_of_mem_children hc).1
  simp [hs]

/-- Different digests for different contents leave no room for collisions. -/
theorem DigestsApart.collisionFree (h : DigestsApart e e') (he : e.Fits) (he' : e'.Fits) :
    CollisionFree e e' := by
  intro r hr c hc hget
  obtain ⟨k, hk⟩ := exists_kind? hr
  obtain ⟨k', hk'⟩ := exists_kind? hc
  have hcontent := digestsApart_iff.1 h r hr c hc hget
  simp only [hashed?, hk, hk', Option.map_some, Option.some.injEq] at hcontent
  obtain ⟨rfl, hchildren⟩ := (Signature.content_eq_iff (he r hr k hk) (he' c hc k' hk')).1 hcontent
  rw [childSignatures_eq, childSignatures_eq]
  exact ⟨hk.trans hk'.symm, hchildren.map some⟩

/-- Lists with the same images under two functions correspond to each other element by element. -/
theorem exists_partner {γ : Type} {f g : Nat → γ} {xs ys : List Nat} (hnodup : xs.Nodup)
    (h : (xs.map f).Perm (ys.map g)) :
    ∃ partner : Nat → Nat, (xs.map partner).Perm ys ∧ ∀ x ∈ xs, f x = g (partner x) := by
  induction xs generalizing ys with
  | nil =>
    have hys : ys = [] := by simpa using h.length_eq.symm
    exact ⟨id, by simp [hys], by simp⟩
  | cons x xs ih =>
    obtain ⟨y, hy, hxy⟩ := List.mem_map.1 (h.subset List.mem_cons_self)
    obtain ⟨hx, hnodup⟩ := List.nodup_cons.1 hnodup
    have hrest : (xs.map f).Perm ((ys.erase y).map g) := by
      have herase := (List.perm_cons_erase hy).map g
      rw [List.map_cons, hxy] at herase
      exact (h.trans herase).cons_inv
    obtain ⟨partner, hpartner, hsame⟩ := ih hnodup hrest
    have hother : ∀ z ∈ xs, (if z = x then y else partner z) = partner z := by
      intro z hz
      apply if_neg
      rintro rfl
      exact hx hz
    refine ⟨fun z => if z = x then y else partner z, ?_, ?_⟩
    · rw [List.map_cons, if_pos rfl, List.map_congr_left hother]
      exact (hpartner.cons y).trans (List.perm_cons_erase hy).symm
    · intro z hz
      by_cases hzx : z = x
      · simp [hzx, hxy]
      · have hz : z ∈ xs := (List.mem_cons.1 hz).resolve_left hzx
        simp only [hother z hz, hsame z hz]

/-- Without collisions, subtrees with equal signatures are equal up to the order of children. -/
theorem sameContent_of_get?_eq (h : CollisionFree e e') (ha : a < e.size)
    (hget : (SignatureTable.ofExpression e).get? a = (SignatureTable.ofExpression e').get? b) :
    SameContent e e' a b := by
  induction a, ha using induction_up generalizing b with
  | parent a ha ih =>
    obtain ⟨k, hk⟩ := exists_kind? ha
    obtain ⟨partner, hpartner, hsame⟩ :=
      exists_partner (e.children_nodup a) (h.childSignatures_perm ha hget)
    refine .node partner hk ?_ hpartner ?_
    · rw [← h.kind?_eq ha hget, hk]
    · intro x hx
      exact ih x hx (hsame x hx)

/-- The content of a node determines its kind and the signatures of its children up to their order.
For any two expressions, subtrees that are equal up to the order of children have equal signatures,
and if no two different contents of their nodes have one digest, only such subtrees do. -/
theorem signatures_identify_content :
    (∀ (k k' : Kind) (children children' : List Signature), k.Fits → k'.Fits →
      (Signature.content k children = Signature.content k' children' ↔
        k = k' ∧ children.Perm children')) ∧
    ∀ (e e' : Expression), ∀ a < e.size, ∀ b < e'.size,
      (SameContent e e' a b →
        (SignatureTable.ofExpression e).get? a = (SignatureTable.ofExpression e').get? b) ∧
      (e.Fits → e'.Fits → DigestsApart e e' →
        (SignatureTable.ofExpression e).get? a = (SignatureTable.ofExpression e').get? b →
          SameContent e e' a b) := by
  refine ⟨fun k k' children children' => Signature.content_eq_iff, ?_⟩
  intro e e' a ha b hb
  refine ⟨SameContent.get?_eq, ?_⟩
  intro he he' hdigests
  exact sameContent_of_get?_eq (hdigests.collisionFree he he') ha

/-- A text and a concept below a root. -/
def Sample.textFirst : Expression where
  nodes := .ofList [⟨.literal (.text "é"), []⟩, ⟨.concept 1, []⟩, ⟨.root, [0, 1]⟩]
  root := 2
  parents := #[some 2, some 2, none]
  valid := by decide +kernel

def Sample.textLast : Expression where
  nodes := .ofList [⟨.literal (.text "é"), []⟩, ⟨.concept 1, []⟩, ⟨.root, [1, 0]⟩]
  root := 2
  parents := #[some 2, some 2, none]
  valid := by decide +kernel

theorem Sample.apart_textFirst : textFirst.Fits ∧ textLast.Fits ∧ DigestsApart textFirst textLast ∧
    (SignatureTable.ofExpression textFirst).get? 2 =
      (SignatureTable.ofExpression textLast).get? 2 := by
  decide +kernel

theorem signatures_identify_content_textFirst :
    (Signature.content (.literal (.text "é")) [] = Signature.content (.literal (.text "e")) [] ↔
      Kind.literal (.text "é") = Kind.literal (.text "e") ∧ [].Perm ([] : List Signature)) ∧
    SameContent Sample.textFirst Sample.textLast 2 2 ∧
    (SignatureTable.ofExpression Sample.textFirst).get? 2 =
      (SignatureTable.ofExpression Sample.textLast).get? 2 := by
  obtain ⟨hfirst, hlast, hdigests, hget⟩ := Sample.apart_textFirst
  have hcontent := signatures_identify_content.1 (.literal (.text "é")) (.literal (.text "e")) [] []
    (by decide) (by decide)
  have hnodes := signatures_identify_content.2 Sample.textFirst Sample.textLast 2 (by decide) 2
    (by decide)
  have hsame := hnodes.2 hfirst hlast hdigests hget
  exact ⟨hcontent, hsame, hnodes.1 hsame⟩

end Expression
end Concordance
