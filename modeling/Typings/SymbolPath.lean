import Typings.Fault

/-!
Paths of symbols and modules. Segments are joined by `::`; the last one names a
symbol inside the module that the others name. A module belongs to one of two
roots, and its root decides in which folder its file lies.
-/

namespace Typings

/-- What stands before the last `::` and what stands behind it. -/
def cutAtLast? : List Char → Option (List Char × List Char)
  | [] => none
  | c :: rest =>
    match cutAtLast? rest with
    | some (front, name) => some (c :: front, name)
    | none =>
      match c, rest with
      | ':', ':' :: name => some ([], name)
      | _, _ => none

/-- The segments of a path, cut from the left; `done` holds the
current one in reverse. -/
def segmentsFrom (done : List Char) : List Char → List String
  | ':' :: ':' :: rest => String.ofList done.reverse :: segmentsFrom [] rest
  | c :: rest => segmentsFrom (c :: done) rest
  | [] => [String.ofList done.reverse]

def segments (path : String) : List String :=
  segmentsFrom [] path.toList

def lastSegment (path : String) : String :=
  match cutAtLast? path.toList with
  | some (_, name) => String.ofList name
  | none => path

def splitPath (path : String) : Except Fault (String × String) :=
  match cutAtLast? path.toList with
  | some (front, c :: name) =>
      .ok (String.ofList front, String.ofList (c :: name))
  | _ => .error (.shape { cause := .noSymbolName path, kind := .str "import",
                          path := some path })

def generatedFolder : String := "sandstone/generated"

def importFile (path : String) : Except Fault String :=
  let parts := match segments path with
    | "" :: rest => rest
    | all => all
  match parts with
  | [] => .error (.shape { cause := .emptyModulePath, kind := .str "import",
                           path := some path })
  | root :: rest =>
    if root == "java" then .ok ("/".intercalate (generatedFolder :: rest))
    else if root == "sandstone" then .ok ("/".intercalate ("sandstone" :: rest))
    else .error (.shape { cause := .unsupportedRoot root, kind := .str "import",
                          path := some path })

/-- Path of a symbol of the typed library itself. -/
def libraryPath (name : String) : String :=
  "sandstone::" ++ name

/-- Module that holds the tables of every dispatcher without a
home of its own. -/
def tablesModule : String := "::java::dispatcher"

def registriesModule : String := "::java::registry"

/-- Module that holds the resource classes. -/
def classesModule : String := "::java::resources"

/-- Path of a dispatcher's symbol in the shared module. -/
def tablePath (symbol : String) : String :=
  tablesModule ++ "::" ++ symbol

end Typings
