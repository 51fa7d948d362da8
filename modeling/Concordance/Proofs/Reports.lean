import Concordance.Proofs.Walk

/-!
# What a difference reports

At a node where it ends the walk reports content that both sides have, or
subtrees that only one side has. A node of a side is reported as one-sided
exactly if the walk comes to it, does not go on below it, and it is not in a
pair of nodes with equal signatures.
-/
namespace Concordance

open Expression Matching

namespace Difference

open Merged

/-- The one-sided subtrees of a side: deletions are on the reference side, additions on the
comparison side. -/
def oneSided (d : Difference) (side : Side) : List OneSided :=
  side.pick d.deletions d.additions

/-- The subtree that a merged node reports on a side. -/
def report? (m : Mapping) (v : MergedNode) (side : Side) : Option OneSided :=
  side.pick (deletion? m v) (addition? m v)

/-- A node of a side is kept: it is in a pair of nodes with equal signatures. -/
def Kept (p : Problem) (m : Mapping) (side : Side) (n : Nat) : Prop :=
  ∃ r c q, m.correspondence? r = some ⟨c, q⟩ ∧ p.Alike r c ∧ side.pick r c = n

variable {p : Problem} {m : Mapping} {g : Merged} {side : Side} {n r c k : Nat} {q : Quality}
  {v : MergedNode} {e : OneSided}

theorem report?_of_shared (ho : v.origin = .shared r c q) (side : Side) :
    report? m v side = if descends v || hasSameContent m v r c then none else
      (side.pick v.referenceSignature v.comparisonSignature).map
        fun s => ⟨v.index, side, side.pick r c, v.kind, s⟩ := by
  cases side <;> simp [report?, deletion?, addition?, ho, Side.pick]

theorem report?_of_unpaired (ho : v.origin = side.pick (.reference n) (.comparison n)) :
    report? m v side = (side.pick v.referenceSignature v.comparisonSignature).map
      fun s => ⟨v.index, side, n, v.kind, s⟩ := by
  cases side <;> simp [report?, deletion?, addition?, ho, Side.pick]

/-- What a merged node reports on a side has a node of that side behind it. -/
theorem node?_of_report? (h : report? m v side = some e) : v.origin.node? side = some e.origin := by
  cases side <;> cases ho : v.origin <;>
    simp [report?, deletion?, addition?, ho, Side.pick, Origin.node?, Origin.reference?,
      Origin.comparison?, Option.map_eq_some_iff] at h ⊢
  · obtain ⟨-, s, -, rfl⟩ := h
    rfl
  · obtain ⟨s, -, rfl⟩ := h
    rfl
  · obtain ⟨-, s, -, rfl⟩ := h
    rfl
  · obtain ⟨s, -, rfl⟩ := h
    rfl

theorem mem_visited : v ∈ visited g ↔ ∃ k ∈ (walk g).preOrder, g.nodes.get? k = some v :=
  List.mem_filterMap

theorem mem_oneSided :
    e ∈ (ofMerged g m).oneSided side ↔ ∃ v ∈ visited g, report? m v side = some e := by
  cases side <;> exact List.mem_filterMap

theorem isUnchanged_iff {d : Difference} :
    d.isUnchanged = true ↔ ∀ side, d.oneSided side = [] := by
  rw [isUnchanged, Bool.and_eq_true, List.isEmpty_iff, List.isEmpty_iff]
  constructor
  · rintro ⟨hadditions, hdeletions⟩ side
    cases side with
    | reference => exact hdeletions
    | comparison => exact hadditions
  · intro h
    exact ⟨h .comparison, h .reference⟩

/-- What a merged node says about a node of a side that it stands for. -/
structure Shows (p : Problem) (m : Mapping) (side : Side) (n : Nat) (v : MergedNode) : Prop where
  origin : v.origin = (p.input m).origin side n
  kind : (p.tree side).kind? n = some v.kind
  signature : side.pick v.referenceSignature v.comparisonSignature = (p.table side).get? n
  descends : descends v = true ↔ Passable p m side n
  content : ∀ r c q, v.origin = .shared r c q → (hasSameContent m v r c = true ↔ p.Alike r c)

section Fair

variable (hp : p.Own) (hm : Fair p m)

include hm

theorem kept_iff (hrc : m.correspondence? r = some ⟨c, q⟩) :
    Kept p m side (side.pick r c) ↔ p.Alike r c := by
  constructor
  · rintro ⟨x, y, q', hxy, halike, hpick⟩
    obtain ⟨rfl, rfl, -⟩ := hm.valid.pair_unique hxy hrc hpick
    exact halike
  · intro halike
    exact ⟨r, c, q, hrc, halike, rfl⟩

/-- A merged node reports a node of a side that it stands for unless the walk goes on below it or
the node is kept. -/
theorem report?_eq_some_iff (hv : Shows p m side n v) : report? m v side = some e ↔
    ¬ Passable p m side n ∧ ¬ Kept p m side n ∧
      ∃ s, (p.table side).get? n = some s ∧ e = ⟨v.index, side, n, v.kind, s⟩ := by
  have hreport : ∀ {signature : Option Signature}, signature = (p.table side).get? n →
      (signature.map (fun s => (⟨v.index, side, n, v.kind, s⟩ : OneSided)) = some e ↔
        ∃ s, (p.table side).get? n = some s ∧ e = ⟨v.index, side, n, v.kind, s⟩) := by
    rintro signature rfl
    rw [Option.map_eq_some_iff]
    simp only [eq_comm]
  rcases Input.origin_cases (i := p.input m) hm.valid side n with
    ⟨r, c, q, hrc, rfl, horigin⟩ | ⟨hfree, horigin⟩
  · have hshared := hv.origin.trans horigin
    rw [report?_of_shared hshared, kept_iff hm hrc, ← hv.descends, ← hv.content r c q hshared]
    cases descends v <;> cases hasSameContent m v r c <;> simp [hreport hv.signature]
  · have hpassable : ¬ Passable p m side n := fun ⟨⟨q, hq⟩, _⟩ => hfree q hq
    have hkept : ¬ Kept p m side n := fun ⟨r, c, q, hrc, _, hpick⟩ => hfree q ⟨r, c, hrc, hpick⟩
    rw [report?_of_unpaired (hv.origin.trans horigin), hreport hv.signature,
      and_iff_right hpassable, and_iff_right hkept]

include hp

theorem hasSameContent_iff (hrc : m.correspondence? r = some ⟨c, q⟩)
    (hreference : v.referenceSignature = p.referenceTable.get? r)
    (hcomparison : v.comparisonSignature = p.comparisonTable.get? c) :
    hasSameContent m v r c = true ↔ p.Alike r c := by
  have hr := (hm.valid.lt_sizes (Mapping.comparisonFor?_eq_some_iff.2 ⟨q, hrc⟩)).1
  obtain ⟨s, hs⟩ := hp.exists_reference_get? hr
  rw [hasSameContent, Bool.and_eq_true, Bool.or_eq_true, decide_eq_true_eq, decide_eq_true_eq,
    hreference, hcomparison, hs]
  constructor
  · rintro ⟨-, hexact | hequal⟩
    · exact hm.exact r c hexact
    · exact ⟨s, hs, hequal⟩
  · intro halike
    exact ⟨rfl, .inr ((Problem.alike_iff hs).1 halike)⟩

theorem exists_shows (hplace : (p.input m).Place side n k) :
    ∃ v, (build (p.input m)).nodes.get? k = some v ∧ Shows p m side n v := by
  have hi : (p.input m).Paired := hm.valid
  have hn : n < (p.tree side).size := hplace.lt_size hi
  obtain ⟨j, hj⟩ := exists_kind? hn
  obtain ⟨v, hv, horigin, hkind, hreference, hcomparison⟩ := exists_node_of_origin hplace
  have hdescends := descends_joinedNode_iff hm hn k
  have hjoined := kind_joinedNode hm hj k
  have hsame : descends v =
      descends ((p.input m).numbered.joinedNode k ((p.input m).origin side n)) := by
    rw [descends, descends, horigin, hkind]
    rfl
  refine ⟨v, hv, horigin, ?_, ?_, by rw [hsame, hdescends], ?_⟩
  · rw [hkind, hjoined, hj]
  · have hnode := Input.node?_origin hi side n
    rw [hreference, hcomparison]
    cases side with
    | reference => exact congrArg (·.bind p.referenceTable.get?) hnode
    | comparison => exact congrArg (·.bind p.comparisonTable.get?) hnode
  · intro r c q ho
    rw [horigin] at ho
    rw [ho] at hreference hcomparison
    exact hasSameContent_iff hp hm (Input.correspondence?_of_origin hi ho) hreference hcomparison

/-- Every one-sided subtree is a node of its side at which the walk ends, and that is not kept. -/
theorem of_mem_oneSided (he : e ∈ (ofMerged (build (p.input m)) m).oneSided side) :
    (p.table side).get? e.origin = some e.signature ∧ Reached p m side e.origin ∧
      ¬ Passable p m side e.origin ∧ ¬ Kept p m side e.origin := by
  obtain ⟨v, hvisited, hreport⟩ := mem_oneSided.1 he
  obtain ⟨k, hk, hv⟩ := mem_visited.1 hvisited
  have hplace := Input.place_of_node? (i := p.input m) hm.valid hv (node?_of_report? hreport)
  obtain ⟨w, hw, hshows⟩ := exists_shows hp hm hplace
  obtain rfl : w = v := Option.some.inj (hw.symm.trans hv)
  obtain ⟨hstop, hnew, s, hs, heq⟩ := (report?_eq_some_iff hm hshows).1 hreport
  have hsignature : e.signature = s := by rw [heq]
  exact ⟨hsignature ▸ hs, ⟨k, hk, hplace⟩, hstop, hnew⟩

theorem exists_report (hn : Reached p m side n) (hstop : ¬ Passable p m side n)
    (hnew : ¬ Kept p m side n) :
    ∃ e ∈ (ofMerged (build (p.input m)) m).oneSided side, e.origin = n := by
  obtain ⟨k, hk, hplace⟩ := hn
  obtain ⟨s, hs⟩ := hp.exists_get? side (hplace.lt_size (i := p.input m) hm.valid)
  obtain ⟨v, hv, hshows⟩ := exists_shows hp hm hplace
  refine ⟨⟨v.index, side, n, v.kind, s⟩, mem_oneSided.2 ⟨v, mem_visited.2 ⟨k, hk, hv⟩, ?_⟩, rfl⟩
  exact (report?_eq_some_iff hm hshows).2 ⟨hstop, hnew, s, hs, rfl⟩

/-- At a kept pair at which the walk ends there is a shared subtree. -/
theorem exists_shared (hrc : m.correspondence? r = some ⟨c, q⟩) (halike : p.Alike r c)
    (hn : Reached p m side (side.pick r c)) (hstop : ¬ Passable p m side (side.pick r c)) :
    ∃ shared ∈ (visited (build (p.input m))).filterMap (shared? m),
      shared.reference = r ∧ shared.comparison = c ∧
        p.reference.kind? r = some shared.kind ∧
        p.referenceTable.get? r = some shared.signature := by
  have hi : (p.input m).Paired := hm.valid
  obtain ⟨k, hk, hplace⟩ := hn
  have hplace' : (p.input m).Place .reference r k := by
    have hpair := Input.origin_of_pair hi hrc
    rw [Input.Place, hplace, hpair side]
    exact congrArg some (hpair .reference).symm
  obtain ⟨v, hv, hshows⟩ := exists_shows hp hm hplace
  obtain ⟨w, hw, hshows'⟩ := exists_shows hp hm hplace'
  obtain rfl : w = v := Option.some.inj (hw.symm.trans hv)
  have horigin := hshows.origin.trans (Input.origin_of_pair hi hrc side)
  obtain ⟨s, hr, -⟩ := id halike
  refine ⟨⟨w.index, r, c, w.kind, s⟩, List.mem_filterMap.2 ⟨w, mem_visited.2 ⟨k, hk, hv⟩, ?_⟩,
    rfl, rfl, hshows'.kind, hr⟩
  have hends : descends w = false := Bool.eq_false_iff.2 (mt hshows.descends.1 hstop)
  have hsignature : w.referenceSignature = some s := hshows'.signature.trans hr
  rw [shared?, horigin]
  simp [hends, (hshows.content r c q horigin).2 halike, hsignature]

end Fair
end Difference
end Concordance
