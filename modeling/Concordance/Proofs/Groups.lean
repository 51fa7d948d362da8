import Concordance.Proofs.Content
import Mathlib.Data.List.Induction

/-!
# Nodes grouped by signature

A table lists the nodes of every signature, in byte order of the signatures. The
same groups come out of one pass over the table that adds each node to the group
of its signature and starts a new group where there is none: what the pass has
built so far are the groups of the entries that it has seen. The groups divide
the nodes among them, and every group is ascending.
-/
namespace Concordance.SignatureTable

variable {e : Expression} {t : SignatureTable} {s s' : Signature} {n : Nat} {ns : List Nat}

/-- Signatures with the nodes that have them. -/
abbrev Groups := List (Signature × List Nat)

/-- One group comes before another in byte order. -/
def Before (a b : Signature × List Nat) : Prop :=
  a.1.le b.1 = true ∧ a.1 ≠ b.1

theorem Before.trans {a b c : Signature × List Nat} (hab : Before a b) (hbc : Before b c) :
    Before a c := by
  refine ⟨Digest.le_trans _ _ _ hab.1 hbc.1, fun hac => hab.2 ?_⟩
  exact Digest.le_antisymm hab.1 (hac ▸ hbc.1)

def addTo (s : Signature) (n : Nat) : Groups → Groups
  | [] => [(s, [n])]
  | (s', ns) :: groups =>
    if s = s' then (s', ns ++ [n]) :: groups
    else if s.le s' then (s, [n]) :: (s', ns) :: groups
    else (s', ns) :: addTo s n groups

/-- Groups built up from signatures with their nodes. -/
def grouped (entries : List (Signature × Nat)) : Groups :=
  entries.foldl (fun groups entry => addTo entry.1 entry.2 groups) []

/-- The nodes that are listed with a signature. -/
def listedWith (entries : List (Signature × Nat)) (s : Signature) : List Nat :=
  (entries.filter fun entry => entry.1 = s).map Prod.snd

theorem listedWith_concat (entries : List (Signature × Nat)) (s s' : Signature) (n : Nat) :
    listedWith (entries ++ [(s, n)]) s' =
      if s = s' then listedWith entries s' ++ [n] else listedWith entries s' := by
  rw [listedWith, List.filter_append, List.filter_singleton]
  split
  · simp_all [listedWith]
  · simp_all [listedWith]

/-- Groups are those of a family of lists: in byte order, and for every signature with a list that
is not empty, this list. -/
structure Represents (groups : Groups) (nodes : Signature → List Nat) : Prop where
  byte_order : groups.Pairwise Before
  mem_iff : ∀ s ns, (s, ns) ∈ groups ↔ ns ≠ [] ∧ ns = nodes s

/-- Groups in byte order are told by the lists that they represent. -/
theorem Represents.unique {groups groups' : Groups} {nodes : Signature → List Nat}
    (h : Represents groups nodes) (h' : Represents groups' nodes) : groups = groups' := by
  have hnodup : ∀ {groups : Groups}, groups.Pairwise Before → groups.Nodup :=
    fun hbefore => hbefore.imp fun hab heq => hab.2 (congrArg Prod.fst heq)
  apply List.Perm.eq_of_pairwise _ h.byte_order h'.byte_order
  · rw [List.perm_ext_iff_of_nodup (hnodup h.byte_order) (hnodup h'.byte_order)]
    rintro ⟨s, ns⟩
    rw [h.mem_iff, h'.mem_iff]
  · intro a b _ _ hab hba
    exact absurd (Digest.le_antisymm hab.1 hba.1) hab.2

/-- A group after a node is added is an old one of another signature, or the one that the node is
in: that of its signature with the node at its end. -/
theorem mem_addTo {groups : Groups} (h : groups.Pairwise Before) :
    (s', ns) ∈ addTo s n groups ↔ (s ≠ s' ∧ (s', ns) ∈ groups) ∨ (s = s' ∧ ∃ old,
      ns = old ++ [n] ∧ ((s, old) ∈ groups ∨ (old = [] ∧ ∀ ms, (s, ms) ∉ groups))) := by
  induction groups with
  | nil => simp [addTo, eq_comm]
  | cons group groups ih =>
    obtain ⟨t, ts⟩ := group
    obtain ⟨hfirst, hrest⟩ := List.pairwise_cons.1 h
    rw [addTo]
    split
    · rename_i heq
      subst heq
      have hnone : ∀ ms, (s, ms) ∉ groups := fun ms hms => (hfirst _ hms).2 rfl
      by_cases hs : s = s'
      · subst hs
        simp [hnone]
      · simp [hs, Ne.symm hs]
    · rename_i hne
      split
      · rename_i hle
        have hnone : ∀ ms, (s, ms) ∉ groups :=
          fun ms hms => hne (Digest.le_antisymm hle (hfirst _ hms).1)
        by_cases hs : s = s'
        · subst hs
          simp [hnone, hne]
        · simp [hs, Ne.symm hs]
      · rw [List.mem_cons, ih hrest]
        by_cases hs : s = s'
        · subst hs
          simp [hne]
        · simp [hs]

theorem byte_order_addTo {groups : Groups} (h : groups.Pairwise Before) :
    (addTo s n groups).Pairwise Before := by
  induction groups with
  | nil => exact List.pairwise_singleton _ _
  | cons group groups ih =>
    obtain ⟨t, ts⟩ := group
    obtain ⟨hfirst, hrest⟩ := List.pairwise_cons.1 h
    rw [addTo]
    split
    · exact List.pairwise_cons.2 ⟨hfirst, hrest⟩
    · rename_i hne
      split
      · rename_i hle
        have hnew : Before (s, [n]) (t, ts) := ⟨hle, hne⟩
        refine List.pairwise_cons.2 ⟨fun b hb => ?_, h⟩
        rcases List.mem_cons.1 hb with rfl | hb
        · exact hnew
        · exact hnew.trans (hfirst b hb)
      · rename_i hle
        refine List.pairwise_cons.2 ⟨?_, ih hrest⟩
        rintro ⟨b, bs⟩ hb
        rcases (mem_addTo hrest).1 hb with ⟨-, hb⟩ | ⟨rfl, -⟩
        · exact hfirst _ hb
        · exact ⟨(Digest.le_total _ _).resolve_left hle, Ne.symm hne⟩

/-- What a pass has built are the groups of the entries that it has seen. -/
theorem represents_grouped (entries : List (Signature × Nat)) :
    Represents (grouped entries) (listedWith entries) := by
  induction entries using List.reverseRecOn with
  | nil => exact ⟨.nil, by simp [grouped, listedWith]⟩
  | append_singleton entries entry ih =>
    obtain ⟨s, n⟩ := entry
    have hstep : grouped (entries ++ [(s, n)]) = addTo s n (grouped entries) := by
      rw [grouped, List.foldl_append]
      rfl
    rw [hstep]
    refine ⟨byte_order_addTo ih.byte_order, fun s' ns => ?_⟩
    rw [mem_addTo ih.byte_order, listedWith_concat]
    by_cases hs : s = s'
    · subst hs
      simp only [ih.mem_iff, if_true, ne_eq, not_true_eq_false, false_and, false_or, true_and]
      constructor
      · rintro ⟨old, rfl, ⟨-, rfl⟩ | ⟨rfl, hnone⟩⟩
        · simp
        · have hnil : listedWith entries s = [] := by
            by_contra hne
            exact hnone _ ⟨hne, rfl⟩
          simp [hnil]
      · rintro ⟨-, rfl⟩
        refine ⟨_, rfl, ?_⟩
        by_cases hnil : listedWith entries s = []
        · exact .inr ⟨hnil, fun ms hms => hms.1 (hms.2.trans hnil)⟩
        · exact .inl ⟨hnil, rfl⟩
    · rw [if_neg hs, ih.mem_iff]
      simp [hs]

theorem mem_signatures_iff : s ∈ t.signatures.toList ↔ t.nodesWith s ≠ [] := by
  rw [Array.mem_toList_iff, Array.mem_iff_getElem?]
  constructor
  · rintro ⟨n, hn⟩ hnil
    have hmem : n ∈ t.nodesWith s := by
      rw [nodesWith, List.mem_filter, List.mem_range, decide_eq_true_eq]
      exact ⟨(Array.getElem?_eq_some_iff.1 hn).1, hn⟩
    rw [hnil] at hmem
    cases hmem
  · intro hne
    obtain ⟨n, hn⟩ := List.exists_mem_of_ne_nil _ hne
    exact ⟨n, of_decide_eq_true (List.mem_filter.1 hn).2⟩

theorem nodesWith_pairwise (t : SignatureTable) (s : Signature) :
    (t.nodesWith s).Pairwise (· < ·) :=
  List.pairwise_lt_range.filter _

theorem represents_occurrences (t : SignatureTable) : Represents t.occurrences t.nodesWith := by
  have hsorted : t.distinct.Pairwise fun a b => a.le b = true ∧ a ≠ b := by
    have hnodup : t.distinct.Nodup := (sortBy_perm _ _).nodup_iff.2 (nodup_eraseDups _)
    exact (sortBy_pairwise Digest.le_total Digest.le_trans _).imp₂ (fun _ _ => And.intro) hnodup
  constructor
  · exact List.pairwise_map.2 hsorted
  · intro s ns
    have hdistinct : s ∈ t.distinct ↔ t.nodesWith s ≠ [] := by
      rw [distinct, mem_sortBy, List.mem_eraseDups, mem_signatures_iff]
    simp only [occurrences, List.mem_map, Prod.mk.injEq]
    constructor
    · rintro ⟨s, hs, rfl, rfl⟩
      exact ⟨hdistinct.1 hs, rfl⟩
    · rintro ⟨hne, rfl⟩
      exact ⟨s, hdistinct.2 hne, rfl, rfl⟩

theorem listedWith_zipIdx (t : SignatureTable) (s : Signature) :
    listedWith t.signatures.toList.zipIdx s = t.nodesWith s := by
  have hascending : (listedWith t.signatures.toList.zipIdx s).Pairwise (· < ·) := by
    have hsub : (listedWith t.signatures.toList.zipIdx s).Sublist
        (t.signatures.toList.zipIdx.map Prod.snd) := List.filter_sublist.map _
    rw [List.zipIdx_map_snd] at hsub
    exact (List.pairwise_lt_range' 1).sublist hsub
  have hnodup : ∀ {xs : List Nat}, xs.Pairwise (· < ·) → xs.Nodup :=
    fun hlt => hlt.imp Nat.ne_of_lt
  apply List.Perm.eq_of_pairwise _ hascending (t.nodesWith_pairwise s)
  · rw [List.perm_ext_iff_of_nodup (hnodup hascending) (hnodup (t.nodesWith_pairwise s))]
    intro n
    simp only [listedWith, List.mem_map, List.mem_filter, List.mem_zipIdx_iff_getElem?,
      decide_eq_true_eq, nodesWith, List.mem_range, Array.getElem?_toList]
    constructor
    · rintro ⟨⟨s', n⟩, ⟨hn, rfl⟩, rfl⟩
      exact ⟨(Array.getElem?_eq_some_iff.1 hn).1, hn⟩
    · rintro ⟨-, hn⟩
      exact ⟨(s, n), ⟨hn, rfl⟩, rfl⟩
  · intro a b _ _ hab hba
    omega

/-- The groups of a table are what one pass over it builds. -/
theorem occurrences_eq_grouped (t : SignatureTable) :
    t.occurrences = grouped t.signatures.toList.zipIdx := by
  have hgrouped := represents_grouped t.signatures.toList.zipIdx
  rw [funext t.listedWith_zipIdx] at hgrouped
  exact t.represents_occurrences.unique hgrouped

/-- Groups of the nodes of an expression: in byte order, no group empty, every group ascending and
made of the nodes with its signature, and every node in one group. -/
structure DividesNodes (e : Expression) (groups : Groups) : Prop where
  byte_order : groups.Pairwise Before
  ne_nil : ∀ group ∈ groups, group.2 ≠ []
  ascending : ∀ group ∈ groups, group.2.Pairwise (· < ·)
  mem_iff : ∀ group ∈ groups, ∀ n, n ∈ group.2 ↔ (ofExpression e).get? n = some group.1
  perm : (groups.flatMap Prod.snd).Perm (List.range e.size)

theorem dividesNodes_occurrences (e : Expression) :
    DividesNodes e (ofExpression e).occurrences := by
  have hrepresents := (ofExpression e).represents_occurrences
  have hgroup : ∀ group ∈ (ofExpression e).occurrences,
      group.2 ≠ [] ∧ group.2 = (ofExpression e).nodesWith group.1 :=
    fun group h => (hrepresents.mem_iff group.1 group.2).1 h
  have hmem : ∀ group ∈ (ofExpression e).occurrences, ∀ n,
      n ∈ group.2 ↔ (ofExpression e).get? n = some group.1 := by
    intro group h n
    rw [(hgroup group h).2, mem_nodesWith]
  refine ⟨hrepresents.byte_order, fun group h => (hgroup group h).1, ?_, hmem, ?_⟩
  · intro group h
    rw [(hgroup group h).2]
    exact (ofExpression e).nodesWith_pairwise group.1
  · have hnodup : ((ofExpression e).occurrences.flatMap Prod.snd).Nodup := by
      rw [List.nodup_flatMap]
      constructor
      · intro group h
        rw [(hgroup group h).2]
        exact nodesWith_nodup _ _
      · refine hrepresents.byte_order.imp_of_mem fun {a b} ha hb hab n hna hnb => hab.2 ?_
        exact Option.some.inj (((hmem a ha n).1 hna).symm.trans ((hmem b hb n).1 hnb))
    rw [List.perm_ext_iff_of_nodup hnodup List.nodup_range]
    intro n
    rw [List.mem_flatMap, List.mem_range]
    constructor
    · rintro ⟨group, h, hn⟩
      exact lt_size_of_get? ((hmem group h n).1 hn)
    · intro hn
      obtain ⟨s, hs⟩ := exists_get? hn
      have hwith : n ∈ (ofExpression e).nodesWith s := mem_nodesWith.2 hs
      exact ⟨(s, _), (hrepresents.mem_iff s _).2 ⟨List.ne_nil_of_mem hwith, rfl⟩, hwith⟩

end Concordance.SignatureTable
