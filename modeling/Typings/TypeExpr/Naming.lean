import Typings.Text.Blank
import Typings.Text.Quoted
import Typings.Text.Split
import Typings.Text.Uppercase

/-!
Names in declarations: type names in pascal case and property names, quoted
where they have to be.
-/

namespace Typings

/-- The characters that separate the words of a name. -/
def separatesWords (c : Char) : Bool :=
  c == '_' || c == '/' || c == ':' || c == '-' || c == '.' || Text.isBlank c

/-- A word with its first character capitalised. -/
def capitalize : List Char → List Char
  | [] => []
  | c :: rest => Text.capital c ++ rest

/-- The words of a name, capitalised and joined. -/
def pascalCase (name : String) : String :=
  String.ofList ((Text.pieces separatesWords name.toList).flatMap capitalize)

def startsIdentifier (c : Char) : Bool :=
  c.isAlpha || c == '_' || c == '$'

/-- May the character stand inside an identifier? -/
def continuesIdentifier (c : Char) : Bool :=
  c.isAlphanum || c == '_' || c == '$'

/-- The rest of an identifier. One newline at its very end is let through. -/
def identifierRest : List Char → Bool
  | [] => true
  | ['\n'] => true
  | c :: rest => continuesIdentifier c && identifierRest rest

/-- May the name stand without quotes? -/
def isIdentifier : List Char → Bool
  | [] => false
  | c :: rest => startsIdentifier c && identifierRest rest

/-- A property name, quoted unless it is an identifier. -/
def keyText (name : String) : String :=
  if isIdentifier name.toList then name else Text.quote name

end Typings
