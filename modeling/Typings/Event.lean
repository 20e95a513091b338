/-!
The phases of a run, and what is worth telling about it.
-/

namespace Typings

/-- The phases of a run. -/
inductive Phase where
  | registries
  | metadata
  | symbols
  | tables
  deriving DecidableEq, Repr

namespace Phase

/-- The phases in the order in which they run. -/
def all : List Phase :=
  [registries, metadata, symbols, tables]

def words : Phase → String
  | registries => "registries"
  | metadata => "dispatcher metadata"
  | symbols => "module symbols"
  | tables => "dispatcher symbols"

end Phase

/-- What is worth telling about a run. -/
inductive Event where
  | resolving (phase : Phase)
  | resolved (modules : Nat)
  | reusedCache (url : String)
  | updatedCache (url : String)
  | fellBack (url : String)

end Typings
