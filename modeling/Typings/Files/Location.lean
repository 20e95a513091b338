import Typings.Text.Split

/-!
Locations of files. Empty parts and single dots say nothing and are dropped; a
double dot is kept, since where it leads depends on the files.
-/

namespace Typings

/-- A location: the slashes it starts with, if any, and its parts. -/
structure Location where
  anchor : String := ""
  parts : List String := []
  deriving DecidableEq, Repr

namespace Location

/-- The anchor of a location that starts with the given number of slashes. Two
slashes are kept, more are like one. -/
def anchorOf (slashes : Nat) : String :=
  if slashes = 0 then "" else if slashes = 2 then "//" else "/"

/-- The parts of a path that say something. -/
def partsOf (path : List Char) : List String :=
  ((Text.pieces (· == '/') path).map String.ofList).filter fun p =>
    p != "" && p != "."

def ofText (path : String) : Location :=
  { anchor := anchorOf (path.toList.takeWhile (· == '/')).length,
    parts := partsOf path.toList }

/-- The location as a path; a location without parts is a single dot. -/
def text (l : Location) : String :=
  if l.anchor = "" ∧ l.parts = [] then "."
  else l.anchor ++ "/".intercalate l.parts

/-- A location seen from another one. One that is anchored stays where it is. -/
def join (l other : Location) : Location :=
  if other.anchor = "" then { l with parts := l.parts ++ other.parts }
  else other

def child (l : Location) (name : String) : Location :=
  l.join (ofText name)

def parent (l : Location) : Location :=
  { l with parts := l.parts.dropLast }

def hasNul (l : Location) : Bool :=
  l.parts.any fun p => p.toList.contains '\x00'

end Location

end Typings
