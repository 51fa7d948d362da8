/-!
# Settings of a correlation

Which of the approximate steps are taken, and how much overlap they ask for.
-/
namespace Concordance

/-- Settings of a correlation. -/
structure Config where
  /-- Pair interior nodes that are left over by the overlap of their children. -/
  bestEffort : Bool := true
  /-- Least number of common children for such a pair. -/
  minOverlap : Nat := 1
  /-- Also pair the children of definition sets that are paired. -/
  connectSpine : Bool := true
deriving DecidableEq

/-- Why settings are refused. -/
inductive ConfigError
  | zeroOverlap
deriving DecidableEq

def ConfigError.message : ConfigError → String
  | .zeroOverlap => "best-effort matching requires a minimum overlap of at least one child"

/-- Refuses settings that would pair nodes without any common child. -/
def Config.validate (c : Config) : Except ConfigError Unit :=
  if c.bestEffort && c.minOverlap == 0 then .error .zeroOverlap else .ok ()

end Concordance
