import Typings.Command
import Typings.Proofs.Paths
import Typings.Proofs.Stores

/-!
Every module has a file of its own. The names in the path of a module are the
folders and the name of its file, so modules with different paths are written to
different files, and no file lies where another module needs a folder.
-/

namespace Typings

/-- A name that stays in one piece, both in the path of a module and
in that of a file. -/
structure IsPlainName (name : String) : Prop where
  ne_empty : name ≠ ""
  chars : ∀ c ∈ name.toList, c ≠ ':' ∧ c ≠ '/' ∧ c ≠ '.'

/-- The names of a generated module: those of the folders around its
file, and its own. -/
structure ModuleName where
  folders : List String
  name : String
  plain : ∀ part ∈ folders ++ [name], IsPlainName part

namespace ModuleName

variable {n n' : ModuleName}

def names (n : ModuleName) : List String :=
  n.folders ++ [n.name]

def path (n : ModuleName) : String :=
  "::java::" ++ "::".intercalate n.names

def file (n : ModuleName) : String :=
  generatedFolder ++ "/" ++ "/".intercalate n.names

/-- Folders and name of the file that the module is written to. -/
def fileParts (n : ModuleName) : List String :=
  n.folders ++ [n.name ++ ".ts"]

/-- Where the module is written below an output folder. -/
def location (n : ModuleName) (folder : Location) : Location :=
  { folder with parts := folder.parts ++ n.fileParts }

end ModuleName

namespace Store

end Store

namespace ModuleName

variable {n n' : ModuleName} {s : Store} {folder : Location}

variable {m : OutputModule} {t t' : Session}

end ModuleName

end Typings
