import Typings.Schema.Node

/-!
The paths that references point at, anywhere in a type except inside attributes:
by recursion on the type, and as the walk over its nodes finds them.
-/

namespace Typings

namespace Schema

mutual

/-- The paths of the references in a type, from left to right. -/
def references : Schema → List Json
  | .list item _ _ => item.references
  | .tuple items _ => allReferences items
  | .struct fields _ => fieldReferences fields
  | .reference path _ => if path.isNull then [] else [path]
  | .concrete child args _ => child.references ++ allReferences args
  | .template child _ _ => child.references
  | .indexed child _ _ => child.references
  | .union members _ => allReferences members
  | _ => []

def allReferences : List Schema → List Json
  | [] => []
  | s :: rest => s.references ++ allReferences rest

/-- The paths of the references in keys and types of the fields. -/
def fieldReferences : List Field → List Json
  | [] => []
  | .spread type _ :: rest => type.references ++ fieldReferences rest
  | .pair (.name _) type _ _ _ _ :: rest =>
      type.references ++ fieldReferences rest
  | .pair (.type key) type _ _ _ _ :: rest =>
      key.references ++ type.references ++ fieldReferences rest

end

/-- The paths as a collection to look things up in; a path that is a collection
itself cannot be held. -/
def targets (types : List Schema) : Except Misuse (List Json) :=
  Node.targets (types.map .type)

end Schema

end Typings
