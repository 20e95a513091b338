/-!
Cutting texts: at every separating character, at the first colon, behind a
known beginning.
-/

namespace Typings.Text

/-- The pieces between the separating characters. There is always at
least one piece. -/
def pieces (separates : Char → Bool) : List Char → List (List Char)
  | [] => [[]]
  | c :: rest =>
    if separates c then [] :: pieces separates rest
    else match pieces separates rest with
      | [] => [[c]]
      | first :: more => (c :: first) :: more

theorem pieces_ne_nil (separates : Char → Bool) (cs : List Char) :
    pieces separates cs ≠ [] := by
  cases cs with
  | nil => simp [pieces]
  | cons c rest =>
    simp only [pieces]
    split
    · simp
    · split <;> simp

def lines (cs : List Char) : List (List Char) :=
  pieces (· == '\n') cs

/-- What stands before the first colon and what stands behind it; nothing
without a colon. -/
def cutAtColon? (cs : List Char) : Option (List Char × List Char) :=
  match cs.dropWhile (· != ':') with
  | [] => none
  | _ :: rest => some (cs.takeWhile (· != ':'), rest)

/-- What follows `start`, for a text that begins with it. -/
def after? : List Char → List Char → Option (List Char)
  | [], cs => some cs
  | _ :: _, [] => none
  | d :: start, c :: rest => if d = c then after? start rest else none

/-- A text is cut exactly when it begins with `start`. -/
theorem after?_eq_some_iff {start cs rest : List Char} :
    after? start cs = some rest ↔ cs = start ++ rest := by
  induction start generalizing cs with
  | nil => simp [after?]
  | cons d start ih =>
    cases cs with
    | nil => simp [after?]
    | cons c cs =>
      by_cases h : d = c
      · simp [after?, h, ih]
      · simp [after?, h, Ne.symm h]

/-- Does the text hold the part anywhere? -/
def holds (part : List Char) : List Char → Bool
  | [] => part.isEmpty
  | c :: rest => (after? part (c :: rest)).isSome || holds part rest

end Typings.Text
