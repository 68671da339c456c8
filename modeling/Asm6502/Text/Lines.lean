/-!
# Lines of a text

A line ends at a line feed. The line feed and one carriage return right before it are not part of
the line. What follows the last line feed is a line unless it is empty, and keeps a carriage
return at its end.
-/

namespace Asm6502.Lines

/-- A line without the carriage return that stands before its line feed; `line` is reversed. -/
def withoutReturn : List Char → List Char
  | '\r' :: line => line
  | line => line

/-- The lines of a text whose current line starts with the reversed `line`. -/
def splitFrom : List Char → List Char → List (List Char)
  | [], [] => []
  | line, [] => [line.reverse]
  | line, '\n' :: rest => (withoutReturn line).reverse :: splitFrom [] rest
  | line, c :: rest => splitFrom (c :: line) rest

/-- The lines of a text. -/
def split (text : String) : List String := (splitFrom [] text.toList).map String.ofList

end Asm6502.Lines
