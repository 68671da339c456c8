import Asm6502.Error
import Asm6502.Text.Lines

/-!
# Diagnostics

A diagnostic shows an error above the line of the source that it is about, with a caret under the
column. The caret line keeps the blanks of the source line, so that tabs line up, and replaces
every other character by a space.
-/

namespace Asm6502.Diagnostic

/-- A blank that the caret line keeps. -/
def isKept (c : Char) : Bool := c == ' ' || c == '\t' || c == '\n' || c == '\x0c' || c == '\r'

/-- The text before the caret under column `column` of `line`. -/
def padding (line : String) (column : Nat) : String :=
  String.ofList ((line.toList.map fun c => if isKept c then c else ' ').take column)

/-- Line `number` of a source, counted from one; a line that is not there is empty. -/
def sourceLine (lines : List String) (number : UInt32) : String :=
  (lines[number.toNat - 1]?).getD ""

/-- One error over the lines of a source. Columns are shown counted from one, in the 32 bits that
they are kept in, so that the largest one is shown as zero. -/
def block (lines : List String) (e : Error) : String :=
  match e.place with
  | none => s!"{e.category.name}: {e.message}"
  | some place =>
    let line := sourceLine lines place.position.line
    let number := toString place.position.line
    let gutter := String.ofList (List.replicate number.length ' ')
    let column := place.position.column
    s!"{e.category.name} --> {place.path.text}:{number}:{column + 1}\n" ++
    s!"{gutter} |\n" ++
    s!"{number} | {line}\n" ++
    s!"{gutter} | {padding line column.toNat}^ {e.message}"

/-- All errors over a source, an empty line after each. -/
def render (errors : List Error) (source : String) : String :=
  let lines := Lines.split source
  String.join (errors.map fun e => block lines e ++ "\n\n")

end Asm6502.Diagnostic
