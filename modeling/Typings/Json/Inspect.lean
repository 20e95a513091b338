import Typings.Json.Basic
import Typings.Number.Shortest
import Typings.Text.Inspected

/-!
How messages show JSON values: `inspect` shows texts in quotes, `plain` shows
a text as it is.
-/

namespace Typings.Json

mutual

/-- The value as messages show it. -/
def inspect : Json → String
  | .null => "None"
  | .bool b => if b then "True" else "False"
  | .int i => toString i
  | .double x => x.text "inf" "nan"
  | .str s => Text.inspect s
  | .arr items => "[" ++ ", ".intercalate (inspectItems items) ++ "]"
  | .obj entries =>
      "\x7b" ++ ", ".intercalate (inspectEntries entries) ++ "\x7d"

def inspectItems : List Json → List String
  | [] => []
  | v :: rest => inspect v :: inspectItems rest

def inspectEntries : List (String × Json) → List String
  | [] => []
  | (k, v) :: rest =>
      (Text.inspect k ++ ": " ++ inspect v) :: inspectEntries rest

end

/-- The value as messages show it, a text without quotes. -/
def plain : Json → String
  | .str s => s
  | v => v.inspect

/-- The value in range texts and docs: a whole number has no fraction part,
however it is held. -/
def wholePlain : Json → String
  | .double x => if x.isWhole then ((x.truncate?.map toString).getD "")
    else x.text "inf" "nan"
  | v => v.plain

end Typings.Json
