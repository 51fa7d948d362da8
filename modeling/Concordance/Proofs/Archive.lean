import Concordance.Proofs.Persistence
import Concordance.Report.Archive

/-!
# Reports in an archive

What is kept at a place is read there again, and nothing else in the archive
changes. A report can be kept in every folder that exists, and it can be read at
a place if the bytes there are those of a report.
-/
namespace Concordance.Archive

variable {a a' : Archive} {place other : Place} {r : Report}

theorem save_eq_ok_iff : a.save place r = .ok a' ↔
    place.folder ∈ a.folders ∧ a' = { a with files := (place, r.toCbor) :: a.files } := by
  unfold save
  split
  · rename_i hfolder
    simp [hfolder, eq_comm]
  · rename_i hfolder
    simp [hfolder]

theorem save_eq_error_iff {e : ReportError} :
    a.save place r = .error e ↔ place.folder ∉ a.folders ∧ e = .access := by
  unfold save
  split
  · rename_i hfolder
    simp [hfolder]
  · rename_i hfolder
    simp [hfolder, eq_comm]

/-- A report that was kept is read back, whatever was at the place before. -/
theorem load_save (h : a.save place r = .ok a') (hr : r.Fits) : a'.load place = .ok r := by
  obtain ⟨-, rfl⟩ := save_eq_ok_iff.1 h
  rw [load, List.lookup_cons_self]
  dsimp only
  rw [Report.ofCbor?_toCbor hr]

/-- Keeping a report leaves all other places and all folders as they are. -/
theorem load_save_of_ne (h : a.save place r = .ok a') (hne : other ≠ place) :
    a'.load other = a.load other ∧ a'.folders = a.folders := by
  obtain ⟨-, rfl⟩ := save_eq_ok_iff.1 h
  refine ⟨?_, rfl⟩
  rw [load, List.lookup_cons, beq_false_of_ne hne, load]

theorem load_eq_ok_iff : a.load place = .ok r ↔
    ∃ bytes, List.lookup place a.files = some bytes ∧ Report.ofCbor? bytes = some r := by
  unfold load
  cases List.lookup place a.files with
  | none => simp
  | some bytes => cases hr : Report.ofCbor? bytes <;> simp [hr]

end Concordance.Archive
