import Concordance.Codec.Report

/-!
# Archives of reports

An archive keeps the bytes of reports in named folders. Only folders that exist
take reports, and what is read from an archive has to be a report again.
-/
namespace Concordance

/-- Why a report cannot be kept or read. -/
inductive ReportError
  /-- The bytes are not those of a report. -/
  | decode
  /-- The folder or the file does not exist. -/
  | access
deriving DecidableEq

/-- Place of a file: its folder and its name. -/
structure Place where
  folder : String
  name : String
deriving DecidableEq

/-- Files in folders, latest first. -/
structure Archive where
  folders : List String
  files : List (Place × List UInt8)
deriving DecidableEq

namespace Archive

/-- Keeps a report at a place. -/
def save (a : Archive) (place : Place) (r : Report) : Except ReportError Archive :=
  if place.folder ∈ a.folders then .ok { a with files := (place, r.toCbor) :: a.files }
  else .error .access

/-- Reads the report at a place. -/
def load (a : Archive) (place : Place) : Except ReportError Report :=
  match List.lookup place a.files with
  | none => .error .access
  | some bytes =>
    match Report.ofCbor? bytes with
    | none => .error .decode
    | some r => .ok r

end Archive
end Concordance
