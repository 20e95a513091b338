import Typings.Fault
import Typings.Files.Location

/-!
A store of folders and files. Everything has a full path from the top;
relative locations start at the working folder. An operation that fails says
what stood in its way.
-/

namespace Typings

/-- What a full path leads to. -/
inductive StoreNode where
  | folder
  | file (bytes : List UInt8)

/-- Folders and files by full path, and the working folder. The top is
always a folder. -/
structure Store where
  working : List String
  nodes : List (List String × StoreNode)

namespace Store

/-- A store with nothing but the working folder. -/
def empty : Store :=
  { working := ["work"], nodes := [(["work"], .folder)] }

def node? (s : Store) (path : List String) : Option StoreNode :=
  if path = [] then some .folder else s.nodes.lookup path

/-- Puts something at a full path. -/
def put (s : Store) (path : List String) (node : StoreNode) : Store :=
  { s with nodes := (path, node) :: s.nodes.filter fun n => n.1 != path }

def nameLimit : Nat := 255

/-- The most bytes of a whole path. -/
def pathLimit : Nat := 4095

/-- Walks from a full path along parts; every step starts in a folder, and only
there a name is found to be too long. -/
def walk (s : Store) (path : List String) :
    List String → Except StoreTrouble (List String)
  | [] => .ok path
  | part :: rest =>
    match s.node? path with
    | some .folder =>
      if nameLimit < part.utf8ByteSize then .error .tooLong
      else walk s (if part = ".." then path.dropLast else path ++ [part]) rest
    | some (.file _) => .error .notFolder
    | none => .error .missing

/-- The full path of a location. Everything on the way there exists. -/
def resolve (s : Store) (l : Location) : Except StoreTrouble (List String) :=
  if l.hasNul then .error .unusable
  else if pathLimit < l.text.utf8ByteSize then .error .tooLong
  else s.walk (if l.anchor = "" then s.working else []) l.parts

/-- What is at a location. A location that leads nowhere has nothing, but one
that is too long cannot even be asked for. -/
def at? (s : Store) (l : Location) : Except StoreTrouble (Option StoreNode) :=
  match s.resolve l with
  | .ok path => .ok (s.node? path)
  | .error .tooLong => .error .tooLong
  | .error _ => .ok none

def has (s : Store) (l : Location) : Except StoreTrouble Bool := do
  return (← s.at? l).isSome

def read (s : Store) (l : Location) : Except StoreTrouble (List UInt8) := do
  match s.node? (← s.resolve l) with
  | some (.file bytes) => return bytes
  | some .folder => throw .isFolder
  | none => throw .missing

def write (s : Store) (l : Location) (bytes : List UInt8) :
    Except StoreTrouble Store := do
  let path ← s.resolve l
  match s.node? path with
  | some .folder => throw .isFolder
  | _ => return s.put path (.file bytes)

def remove (s : Store) (l : Location) : Except StoreTrouble Store := do
  let path ← s.resolve l
  match s.node? path with
  | some (.file _) =>
      return { s with nodes := s.nodes.filter fun n => n.1 != path }
  | some .folder => throw .isFolder
  | none => throw .missing

/-- Makes a folder in one that is there; one that is already there will do. -/
def makeFolder (s : Store) (l : Location) : Except StoreTrouble Store := do
  let path ← s.resolve l
  match s.node? path with
  | some .folder => return s
  | some (.file _) => throw .alreadyThere
  | none => return s.put path .folder

/-- Makes the folder with the given parts, last one first. If the folder around
it is missing, that one is made before. -/
def makeFoldersAt (anchor : String) :
    List String → Store → Except StoreTrouble Unit × Store
  | [], s =>
    match s.makeFolder { anchor } with
    | .ok s => (.ok (), s)
    | .error trouble => (.error trouble, s)
  | part :: around, s =>
    let l : Location := { anchor, parts := (part :: around).reverse }
    match s.makeFolder l with
    | .ok s => (.ok (), s)
    | .error .missing =>
      match makeFoldersAt anchor around s with
      | (.ok (), s) =>
        match s.makeFolder l with
        | .ok s => (.ok (), s)
        | .error trouble => (.error trouble, s)
      | failed => failed
    | .error trouble => (.error trouble, s)

/-- Makes a folder and every folder around it. Those made before something is
in the way stay. -/
def makeFolders (s : Store) (l : Location) : Except StoreTrouble Unit × Store :=
  makeFoldersAt l.anchor l.parts.reverse s

/-- A store with nothing but a working folder at the given full path. -/
def startingAt (working : List String) : Store :=
  (makeFolders { working, nodes := [] } { anchor := "/", parts := working }).2

def files (s : Store) : List (List String × List UInt8) :=
  s.nodes.filterMap fun n => match n.2 with
    | .file bytes => some (n.1, bytes)
    | .folder => none

/-- The files below the working folder with their relative paths,
in order of these. -/
def listing (s : Store) : List (String × List UInt8) :=
  let below := s.files.filterMap fun f =>
    if s.working.isPrefixOf f.1 then
      some ("/".intercalate (f.1.drop s.working.length), f.2)
    else none
  below.mergeSort fun a b => decide (a.1 ≤ b.1)

end Store

end Typings
