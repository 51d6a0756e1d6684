/-!
# Lines of a text

A line ends at a line feed. The line feed is not part of the line, and neither is one carriage
return right before it. A last line that no line feed ends counts if it is not empty, and keeps a
carriage return at its end.
-/

namespace MiniLisp.Text

/-- The line without one carriage return at its end. -/
def dropReturn (line : List Char) : List Char :=
  if line.getLast? = some '\r' then line.dropLast else line

/-- The lines of a text, given the characters of the current line that were already passed, last
one first. -/
def linesFrom (passed : List Char) : List Char → List (List Char)
  | [] => if passed.isEmpty then [] else [passed.reverse]
  | c :: cs =>
    if c = '\n' then dropReturn passed.reverse :: linesFrom [] cs
    else linesFrom (c :: passed) cs

/-- The lines of a text. -/
def lines (text : String) : List String :=
  (linesFrom [] text.toList).map String.ofList

end MiniLisp.Text
