import Typings.Text.Blank
import Typings.Text.Split

/-!
Doc comments. The end mark of a comment is escaped wherever it occurs in a doc,
so a comment ends where it should.
-/

namespace Typings

/-- The text with the slash of every `*/` escaped. -/
def escapeCommentEnd : List Char → List Char
  | '*' :: '/' :: rest => '*' :: '\\' :: '/' :: escapeCommentEnd rest
  | c :: rest => c :: escapeCommentEnd rest
  | [] => []

def docLines (docs : List String) : List (List Char) :=
  docs.flatMap fun doc => Text.lines (escapeCommentEnd doc.toList)

/-- One line of a comment of several lines. -/
def docLine (indent : List Char) (line : List Char) : List Char :=
  Text.dropEndBlanks (indent ++ ' ' :: '*' :: ' ' :: line) ++ ['\n']

/-- The docs as characters of a comment; nothing when there are none. -/
def docChars (indent : List Char) (docs : List String) : List Char :=
  if docs.isEmpty then []
  else match docLines docs with
    | [line] => indent ++ "/** ".toList ++ line ++ " */\n".toList
    | lines => indent ++ "/**\n".toList ++ lines.flatMap (docLine indent) ++
        indent ++ " */\n".toList

/-- The docs as a comment; nothing when there are none. -/
def docComment (docs : List String) (indent : String) : String :=
  String.ofList (docChars indent.toList docs)

end Typings
