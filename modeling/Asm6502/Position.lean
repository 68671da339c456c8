import Asm6502.Ascii

/-!
# Positions

A position is a line, counted from one, and a column, counted from zero. Both counters stay at
their largest value once they reach it. Positions are ordered by line, then by column.
-/

namespace Asm6502

/-- A place in a source. -/
structure Position where
  line : UInt32
  column : UInt32
  deriving DecidableEq, Repr

namespace Position

/-- The number after `n`, or `n` if there is none. -/
def count (n : UInt32) : UInt32 := if n = 0xffffffff then n else n + 1

/-- The first byte of a source. -/
def start : Position := ⟨1, 0⟩

def nextColumn (p : Position) : Position := { p with column := count p.column }

def nextLine (p : Position) : Position := ⟨count p.line, 0⟩

/-- The position after the byte `b` at `p`. -/
def after (p : Position) (b : UInt8) : Position :=
  if b == Ascii.lineFeed then p.nextLine else p.nextColumn

instance : Ord Position where
  compare p q := (compare p.line q.line).then (compare p.column q.column)

instance : ToString Position where
  toString p := s!"{p.line}:{p.column}"

end Position

end Asm6502
