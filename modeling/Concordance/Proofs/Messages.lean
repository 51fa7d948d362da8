import Concordance.Codec.Report
import Concordance.Proofs.Bytes

/-!
# What a message says about its domain

The message that is hashed for data in a domain gives the length of the data in
front of them. Of the domain it gives no length: the domain ends where a fixed
mark begins, and a domain may hold the mark as well. So there are different pairs
of a domain and data with one message, and they are all of one form. The longer
domain goes on behind the shorter one with the mark, and the data in the shorter
domain, with their length, imitate all that follows. Where no domain goes on
behind another one with the mark, a message tells its domain and its data; the
domains of nodes and reports are apart in this way.
-/
namespace Concordance.Digest

variable {d d' x x' y y' rest : List UInt8}

/-- The mark behind a domain. -/
def mark : List UInt8 :=
  utf8 ":v1"

/-- Data behind their length. -/
def measured (data : List UInt8) : List UInt8 :=
  littleEndian 8 data.length ++ data

/-- Data in a domain imitate other data in a longer domain: what is longer about the other domain is
the mark and some bytes, and the data with their length are these bytes and all that follows
them. -/
def Imitates (domain data domain' data' : List UInt8) : Prop :=
  ∃ rest, domain' = domain ++ mark ++ rest ∧ measured data = rest ++ (mark ++ measured data')

/-- A domain goes on behind another one with the mark. -/
def GoesOn (domain domain' : List UInt8) : Prop :=
  domain ++ mark <+: domain'

instance (domain domain' : List UInt8) : Decidable (GoesOn domain domain') :=
  inferInstanceAs (Decidable (domain ++ mark <+: domain'))

theorem Imitates.goesOn (h : Imitates d x d' x') : GoesOn d d' := by
  obtain ⟨rest, rfl, -⟩ := h
  exact List.prefix_append _ _

theorem message_eq (domain data : List UInt8) :
    message domain data = utf8 "SWF:" ++ (domain ++ (mark ++ measured data)) := by
  simp only [message, mark, measured, List.append_assoc]

theorem mark_eq : mark = [0x3a, 0x76, 0x31] := by
  decide +kernel

/-- The length has a fixed width, so the data are told by what is behind it. -/
theorem measured_injective (h : measured x = measured x') : x = x' :=
  (List.append_inj h (by simp)).2

/-- The mark does not overlap itself: where it begins again in a list, it has ended. -/
theorem exists_of_mark_append (h : mark ++ y = d ++ (mark ++ y')) (hd : d ≠ []) :
    ∃ rest, d = mark ++ rest ∧ y = rest ++ (mark ++ y') := by
  rw [mark_eq] at h ⊢
  match d, hd with
  | [a], _ => simp at h
  | [a, b], _ => simp at h
  | a :: b :: c :: rest, _ =>
    simp only [List.cons_append, List.nil_append, List.cons.injEq] at h
    obtain ⟨rfl, rfl, rfl, hrest⟩ := h
    exact ⟨rest, rfl, hrest⟩

theorem Imitates.message_eq (h : Imitates d x d' x') : message d x = message d' x' := by
  obtain ⟨rest, rfl, hrest⟩ := h
  rw [Digest.message_eq, Digest.message_eq, hrest]
  simp only [List.append_assoc]

/-- If a message is that of a domain at least as long, the domains and data are equal, or the data
in the shorter domain imitate those in the longer one. -/
theorem eq_or_imitates (h : mark ++ measured x = rest ++ (mark ++ measured x')) :
    (d = d ++ rest ∧ x = x') ∨ Imitates d x (d ++ rest) x' := by
  by_cases hnil : rest = []
  · subst hnil
    rw [List.nil_append] at h
    exact .inl ⟨(List.append_nil d).symm, measured_injective (List.append_cancel_left h)⟩
  · obtain ⟨more, rfl, hmore⟩ := exists_of_mark_append h hnil
    exact .inr ⟨more, (List.append_assoc d mark more).symm, hmore⟩

theorem message_eq_message_iff : message d x = message d' x' ↔
    (d = d' ∧ x = x') ∨ Imitates d x d' x' ∨ Imitates d' x' d x := by
  constructor
  · intro h
    rw [message_eq, message_eq, List.append_cancel_left_eq, List.append_eq_append_iff] at h
    rcases h with ⟨rest, rfl, hrest⟩ | ⟨rest, rfl, hrest⟩
    · exact (eq_or_imitates hrest).imp_right .inl
    · rcases eq_or_imitates (d := d') hrest with ⟨hd, hx⟩ | himitates
      · exact .inl ⟨hd.symm, hx.symm⟩
      · exact .inr (.inr himitates)
  · rintro (⟨rfl, rfl⟩ | himitates | himitates)
    · rfl
    · exact himitates.message_eq
    · exact himitates.message_eq.symm

/-- Two pairs of a domain and data have one message if and only if they are equal or one imitates
the other. So in domains none of which goes on behind another one with the mark messages tell domain
and data, and no message of a node is one of a report. -/
theorem messages_tell_apart :
    (∀ d x d' x', message d x = message d' x' ↔
      (d = d' ∧ x = x') ∨ Imitates d x d' x' ∨ Imitates d' x' d x) ∧
    (∀ d d', ¬ GoesOn d d' → ¬ GoesOn d' d → ∀ x x',
      (message d x = message d' x' ↔ d = d' ∧ x = x')) ∧
    ∀ x x', message Signature.domain x ≠ message Report.domain x' := by
  have hapart : ∀ d d', ¬ GoesOn d d' → ¬ GoesOn d' d → ∀ x x',
      (message d x = message d' x' ↔ d = d' ∧ x = x') := by
    intro d d' h h' x x'
    have hnone : ¬ (Imitates d x d' x' ∨ Imitates d' x' d x) := by
      rintro (himitates | himitates)
      · exact h himitates.goesOn
      · exact h' himitates.goesOn
    rw [message_eq_message_iff, or_iff_left hnone]
  refine ⟨fun _ _ _ _ => message_eq_message_iff, hapart, ?_⟩
  intro x x' heq
  have hdomains : Signature.domain ≠ Report.domain := by decide +kernel
  exact hdomains ((hapart _ _ (by decide +kernel) (by decide +kernel) x x').1 heq).1

/-- One letter is told from another one, with the same data behind it. -/
theorem messages_tell_apart_letters : ¬ GoesOn (utf8 "A") (utf8 "B") ∧
    ¬ GoesOn (utf8 "B") (utf8 "A") ∧
    message (utf8 "A") (utf8 "x") ≠ message (utf8 "B") (utf8 "x") := by
  have hA : ¬ GoesOn (utf8 "A") (utf8 "B") := by decide +kernel
  have hB : ¬ GoesOn (utf8 "B") (utf8 "A") := by decide +kernel
  have hletters : utf8 "A" ≠ utf8 "B" := by decide +kernel
  refine ⟨hA, hB, fun heq => hletters ?_⟩
  exact ((messages_tell_apart.2.1 _ _ hA hB _ _).1 heq).1

/-- The mark and the length zero as data in the empty domain have the message of no data in the
domain of the mark and the length eleven. -/
theorem messages_of_different_pairs :
    message [] [0x3a, 0x76, 0x31, 0, 0, 0, 0, 0, 0, 0, 0] =
      message [0x3a, 0x76, 0x31, 11, 0, 0, 0, 0, 0, 0, 0] [] ∧
    ¬ ∀ d x d' x' : List UInt8, x.length < 2 ^ 64 → x'.length < 2 ^ 64 →
      message d x = message d' x' → d = d' ∧ x = x' := by
  have heq : message [] [0x3a, 0x76, 0x31, 0, 0, 0, 0, 0, 0, 0, 0] =
      message [0x3a, 0x76, 0x31, 11, 0, 0, 0, 0, 0, 0, 0] [] :=
    Imitates.message_eq ⟨[11, 0, 0, 0, 0, 0, 0, 0], by rw [mark_eq]; rfl, by rw [mark_eq]; rfl⟩
  refine ⟨heq, fun h => ?_⟩
  have hdomains := (h _ _ _ _ (by decide) (by decide) heq).1
  cases hdomains

end Concordance.Digest
