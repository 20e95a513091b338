import Typings.Proofs.PropertyKeys

/-!
String literals can be read back, whatever stands behind them. A literal is
written in one pass over the text. That is the same as replacing all
backslashes, then all quotes and then all newlines: the first replacement writes
neither quotes nor newlines, and the backslashes that the other two write are
not escaped again.
-/

namespace Typings.Text

/-- The text with every occurrence of a character replaced. -/
def replaced (c : Char) (new text : List Char) : List Char :=
  text.flatMap fun d => if d = c then new else [d]

theorem replaced_append (c : Char) (new text rest : List Char) :
    replaced c new (text ++ rest) =
      replaced c new text ++ replaced c new rest :=
  List.flatMap_append

/-- The text with its backslashes escaped, then its quotes and
then its newlines. -/
def escapedInTurn (text : List Char) : List Char :=
  replaced '\n' ['\\',
    'n'] (replaced '\'' ['\\', '\''] (replaced '\\' ['\\', '\\'] text))

theorem escapedInTurn_append (text rest : List Char) :
    escapedInTurn (text ++ rest) =
      escapedInTurn text ++ escapedInTurn rest := by
  simp only [escapedInTurn, replaced_append]

theorem escapedInTurn_singleton (c : Char) :
    escapedInTurn [c] = escapeQuoted c := by
  rw [escapeQuoted.eq_def]
  split
  · rfl
  · rfl
  · rfl
  · rename_i hbackslash hquote hnewline
    simp only [escapedInTurn, replaced, List.flatMap_singleton,
      if_neg hbackslash, if_neg hquote, if_neg hnewline]

/-- One pass over the text writes what the three replacements give. -/
theorem flatMap_escapeQuoted (text : List Char) :
    text.flatMap escapeQuoted = escapedInTurn text := by
  induction text with
  | nil => rfl
  | cons c rest ih =>
      rw [List.flatMap_cons, ih, ← escapedInTurn_singleton,
        ← escapedInTurn_append, List.singleton_append]

/-- The value of the literal that a text begins with, and what
follows the literal. -/
def readQuoted (text : String) : Option (String × String) :=
  match text.toList with
  | '\'' :: rest =>
      (scanQuoted rest).map fun r => (String.ofList r.1, String.ofList r.2)
  | _ => none

theorem readQuoted_quote_append (v s : String) :
    readQuoted (quote v ++ s) = some (v, s) := by
  rw [readQuoted, String.toList_append, toList_quote, List.cons_append,
    List.append_assoc, List.singleton_append]
  change (scanQuoted (v.toList.flatMap escapeQuoted ++ '\'' :: s.toList)).map
    _ = _
  rw [scanQuoted_flatMap, Option.map_some, String.ofList_toList,
    String.ofList_toList]

/-- A string literal is the text with backslashes, quotes and newlines escaped
in this order, between quotes, and so it prints. It is read back as the text it
stands for, and what follows it is left. It is on one line, and no other text
has the same literal. -/
theorem quote_read_back (v : String) :
    (TypeExpr.text v).print = .ok (quote v) ∧
      (quote v).toList = '\'' :: (escapedInTurn v.toList ++ ['\'']) ∧
      (∀ s, readQuoted (quote v ++ s) = some (v, s)) ∧ '\n' ∉ (quote v).toList ∧
      ∀ w, quote w = quote v → w = v := by
  refine ⟨rfl, ?_, readQuoted_quote_append v, newline_not_mem_quote v,
    fun w h => ?_⟩
  · rw [toList_quote, flatMap_escapeQuoted]
  · have hread := readQuoted_quote_append w ""
    rw [h, readQuoted_quote_append, Option.some.injEq, Prod.mk.injEq] at hread
    exact hread.1.symm

example : readQuoted "'\\\\n\\'' | 'b'" = some ("\\n'", " | 'b'") := by decide

end Typings.Text
