import Concordance.Kind

/-!
# Labels with names

Concepts and roles are shown by name where a namer knows one, and by their key
otherwise.
-/
namespace Concordance

/-- Names of concepts and roles. -/
abbrev Namer := Key → Option String

namespace Namer

/-- The namer that knows no names. -/
def raw : Namer :=
  fun _ => none

/-- The namer of a list of keys with their names; the first name of a key counts. -/
def ofList (names : List (Key × String)) : Namer :=
  fun key => List.lookup key names

/-- The name of a key, or the key itself. -/
def text (namer : Namer) (key : Key) : String :=
  match namer key with
  | some name => name
  | none => toString key.toInt

/-- A kind on one line. -/
def label (namer : Namer) (kind : Kind) : String :=
  match kind with
  | .existential role | .universal role => kind.name ++ " " ++ namer.text role
  | .concept key => kind.name ++ " " ++ namer.text key
  | .literal value => kind.name ++ " " ++ value.display
  | _ => kind.name

end Namer
end Concordance
