import Typings.Text.Printable

/-!
Inspected texts, as messages show them: in single quotes, or in double
quotes when that saves escaping, with everything that does not print
spelled in hexadecimal.
-/

namespace Typings.Text

/-- The lower-case hexadecimal digits of a number, filled up with
zeros to a width. -/
def hexDigits (width n : Nat) : List Char :=
  let ds := Nat.toDigits 16 n
  List.replicate (width - ds.length) '0' ++ ds

/-- A code point in the shortest of the three hexadecimal escapes. -/
def hexEscape (n : Nat) : List Char :=
  if n < 0x100 then '\\' :: 'x' :: hexDigits 2 n
  else if n < 0x10000 then '\\' :: 'u' :: hexDigits 4 n
  else '\\' :: 'U' :: hexDigits 8 n

/-- How one character is shown between quotes of the given kind. -/
def inspectChar (mark : Char) (c : Char) : List Char :=
  if c = mark ∨ c = '\\' then ['\\', c]
  else if c = '\n' then ['\\', 'n']
  else if c = '\r' then ['\\', 'r']
  else if c = '\t' then ['\\', 't']
  else if isPrintable c then [c]
  else hexEscape c.toNat

/-- Double quotes surround a text that holds a single quote and
no double quote. -/
def inspectMark (cs : List Char) : Char :=
  if cs.contains '\'' && !cs.contains '"' then '"' else '\''

/-- The text as messages show it. -/
def inspect (s : String) : String :=
  let mark := inspectMark s.toList
  String.ofList (mark :: (s.toList.flatMap (inspectChar mark) ++ [mark]))

end Typings.Text
