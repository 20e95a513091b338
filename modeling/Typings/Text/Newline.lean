/-!
Ends of lines. A text that is read from a file has one kind of them.
-/

namespace Typings.Text

/-- Every end of a line becomes a line feed: a carriage return, alone or with a
line feed behind it. -/
def unifyNewlines : List Char → List Char
  | '\r' :: '\n' :: rest => '\n' :: unifyNewlines rest
  | '\r' :: rest => '\n' :: unifyNewlines rest
  | c :: rest => c :: unifyNewlines rest
  | [] => []

end Typings.Text
