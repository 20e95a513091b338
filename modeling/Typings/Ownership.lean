import Typings.Table
import Typings.Text.Split

/-!
Which module owns the declarations of a dispatcher. Modules are ranked by how
often they refer to it, and the first one owns it if it leads the second by
more than a margin.
-/

namespace Typings

/-- Lead over the second module that makes a module the owner. -/
def ownershipLead : Int := 5

/-- Namespace of the identifiers that name none. -/
def standardNamespace : String := "minecraft"

/-- How often each module refers to one dispatcher. -/
structure Tally where
  counts : Table Int := {}

namespace Tally

/-- How often a module refers to the dispatcher. -/
def count (c : Tally) (source : String) : Int :=
  (c.counts.get? source).getD 0

def add (c : Tally) (source : String) (amount : Int) : Tally :=
  ⟨c.counts.put source (c.count source + amount)⟩

def size (c : Tally) : Nat :=
  c.counts.entries.length

/-- A module ranks before another with fewer references, or with as many
and a later path. -/
def ranksBefore (a b : String × Int) : Bool :=
  decide (b.2 < a.2) || decide (a.2 = b.2) && decide (a.1 ≤ b.1)

/-- The modules with their counts, highest first. -/
def ranking (c : Tally) : List (String × Int) :=
  c.counts.entries.mergeSort ranksBefore

/-- The module that owns the dispatcher, if one stands out. -/
def owner? (c : Tally) (margin : Int) : Option String :=
  match c.ranking with
  | [] => none
  | [only] => some only.1
  | first :: second :: _ =>
      if second.2 + margin < first.2 then some first.1 else none

end Tally

/-- What stands before the first colon, or everything if there is none. -/
def namespaceOf (registry : String) : String :=
  match Text.cutAtColon? registry.toList with
  | some (front, _) => String.ofList front
  | none => registry

/-- Does the dispatcher lie outside the default namespace, so that no
module ever owns it? -/
def isForeign (registry : String) : Bool :=
  namespaceOf registry != standardNamespace

/-- The registry without the default namespace in front. -/
def withoutNamespace (registry : String) : String :=
  match Text.after? (standardNamespace ++ ":").toList registry.toList with
  | some rest => String.ofList rest
  | none => registry

/-- The identifier with a namespace, the default one if it names none. -/
def withNamespace (id : String) : String :=
  if id.toList.contains ':' then id else standardNamespace ++ ":" ++ id

end Typings
