import Typings.Declaration
import Typings.SymbolPath
import Typings.Table

/-!
Import lists: the symbol paths that a piece of output needs, in increasing order
and without repetitions, next to a table of places for looking paths up.
`importDeclarations` turns a list into one import declaration for each file.
-/

namespace Typings

/-- Paths in increasing order, and the place of each. -/
structure ImportPaths where
  ordered : List String := []
  places : Table Nat := {}

namespace ImportPaths

/-- The path put in order among the others. -/
def insertInOrder (path : String) (ordered : List String) : List String :=
  ordered.takeWhile (· < path) ++ path :: ordered.dropWhile (· < path)

def placeFrom (start : Nat) : List String → Table Nat → Table Nat
  | [], places => places
  | path :: rest, places => placeFrom (start + 1) rest (places.put path start)

def contains (l : ImportPaths) (path : String) : Bool :=
  l.places.has path

/-- The list with a path in it. Every path behind the new one moves
up by one place. -/
def insert (l : ImportPaths) (path : String) : ImportPaths :=
  if l.contains path then l
  else
    let ordered := insertInOrder path l.ordered
    let start := (l.ordered.takeWhile (· < path)).length
    { ordered, places := placeFrom start (ordered.drop start) l.places }

def insertNew (l : ImportPaths) (path : String) : Bool × ImportPaths :=
  if l.contains path then (false, l) else (true, l.insert path)

def ofList (paths : List String) : ImportPaths :=
  paths.foldl insert {}

/-- The list with the paths of another one, without those that are excluded. -/
def mergeExcept (l other : ImportPaths) (excluded : String → Bool) :
    ImportPaths :=
  (other.ordered.filter fun path => !excluded path).foldl insert l

/-- Do the lists hold the same paths? -/
def same (l other : ImportPaths) : Bool :=
  l.ordered == other.ordered

end ImportPaths

/-- Puts a path into a list that may not be there yet. -/
def includeImport (imports : Option ImportPaths) (path : String) :
    Option ImportPaths :=
  some ((imports.getD {}).insert path)

/-- Folds the second list into the first; a list that is missing or
empty adds nothing. -/
def joinImports (imports other : Option ImportPaths) : Option ImportPaths :=
  match other with
  | none => imports
  | some l => if l.ordered.isEmpty then imports
    else some ((imports.getD {}).mergeExcept l fun _ => false)

namespace Import

/-- The name put in order among the others, once. -/
def insertName (name : String) : List String → List String
  | [] => [name]
  | n :: rest =>
    if name < n then name :: n :: rest
    else if name = n then n :: rest
    else n :: insertName name rest

/-- The imports with one more name from a file; files and names stay in
increasing order. -/
def add (file name : String) : List Import → List Import
  | [] => [{ file, names := [name] }]
  | i :: rest =>
    if file < i.file then { file, names := [name] } :: i :: rest
    else if file = i.file then
      { i with names := insertName name i.names } :: rest
    else i :: add file name rest

end Import

/-- The file and name that each path is imported from, without the
paths of one module. -/
def importTargets (local? : Option String) :
    List String → Except Fault (List (String × String))
  | [] => .ok []
  | path :: rest => do
    let (source, name) ← splitPath path
    if local? = some source then importTargets local? rest
    else
      let file ← importFile source
      return (file, name) :: (← importTargets local? rest)

/-- One import declaration for each file. -/
def importDeclarations (imports : Option ImportPaths) (local? : Option String) :
    Except Fault (List Import) :=
  match imports with
  | none => .ok []
  | some l => do
    let targets ← importTargets local? l.ordered
    return targets.foldl (fun done t => Import.add t.1 t.2 done) []

end Typings
