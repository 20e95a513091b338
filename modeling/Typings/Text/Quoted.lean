/-!
Single-quoted literals. A backslash, a quote and a newline are escaped with a
backslash, and every other character stands for itself.
-/

namespace Typings.Text

/-- How one character is written between single quotes. -/
def escapeQuoted : Char → List Char
  | '\\' => ['\\', '\\']
  | '\'' => ['\\', '\'']
  | '\n' => ['\\', 'n']
  | c => [c]

/-- The text as a single-quoted literal. -/
def quote (s : String) : String :=
  String.ofList ('\'' :: (s.toList.flatMap escapeQuoted ++ ['\'']))

/-- An escaped character is never a raw newline. -/
theorem newline_not_mem_escapeQuoted (c : Char) : '\n' ∉ escapeQuoted c := by
  unfold escapeQuoted
  split <;> simp_all
  rename_i h
  exact fun e => h e.symm

end Typings.Text
