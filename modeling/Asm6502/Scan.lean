import Asm6502.Lexeme

/-!
# Scanning

A source is cut into lexemes from its first byte on. Scanning ends with the last byte, at the
first lexeme with a fault, or where the source could not be read on. A lexeme at the end of the
source stands only if the source really ends there: after a failure to read, the next byte might
have belonged to it.
-/

namespace Asm6502

/-- The tokens of a source, and the error that stopped the scan. -/
structure Scan where
  tokens : List Token
  error? : Option Error
  deriving DecidableEq, Repr

namespace Scan

/-- The same scan after one more token. -/
def cons (t : Token) (s : Scan) : Scan := { s with tokens := t :: s.tokens }

/-- Scans the marks of a source; `fault?` is the failure that cut it short. -/
def ofMarks (source : Path) (fault? : Option Error) : List Mark → Scan
  | [] => ⟨[], fault?⟩
  | m :: rest =>
    let lexeme := Lexeme.read source m rest
    match lexeme.atEnd, fault? with
    | true, some e => ⟨[], some e⟩
    | _, _ =>
      match lexeme.meaning with
      | .nothing => ofMarks source fault? lexeme.rest
      | .token t => (ofMarks source fault? lexeme.rest).cons t
      | .fault cause => ⟨[], some ((Error.ofCause cause).locate source m.pos)⟩
termination_by marks => marks.length
decreasing_by
  all_goals
    have := Lexeme.read_rest_length_le source m rest
    simp only [List.length_cons]
    omega

/-- The marks of bytes, the first of them at `pos`. -/
def marksFrom (pos : Position) : Bytes → List Mark
  | [] => []
  | b :: rest => ⟨b, pos⟩ :: marksFrom (pos.after b) rest

/-- Scans a source in memory. -/
def ofBytes (source : Path) (bs : Bytes) : Scan := ofMarks source none (marksFrom .start bs)

end Scan

end Asm6502
