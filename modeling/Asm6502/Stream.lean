import Asm6502.Reader

/-!
# Streams

A stream stands on one byte of its reader and knows the position of that byte. A move to the next
byte counts a line if the byte that is left is a line feed, else a column; a move that fails
leaves byte and position alone. `drain` moves on until a move fails and gives all the bytes with
their positions.
-/

namespace Asm6502

/-- A byte of a source and where it stands. -/
structure Mark where
  byte : UInt8
  pos : Position
  deriving DecidableEq, Repr

/-- A source as it was read: its bytes, at least one, and the error that ended the reading. -/
structure Tape where
  head : Mark
  tail : List Mark
  ending : Error
  deriving Repr

namespace Tape

def marks (t : Tape) : List Mark := t.head :: t.tail

/-- The failure that cut the source short. Running out of bytes is not one. -/
def fault? (t : Tape) : Option Error :=
  if t.ending.code = .endOfFile then none else some t.ending

end Tape

structure Stream (ρ : Type) where
  reader : ρ
  byte : UInt8
  pos : Position

namespace Stream

variable {ρ : Type} [Reader ρ]

def path (s : Stream ρ) : Path := Reader.path s.reader

def mark (s : Stream ρ) : Mark := ⟨s.byte, s.pos⟩

/-- Moves to the next byte. -/
def next (s : Stream ρ) : Attempt Unit (Stream ρ) :=
  match Reader.readByte s.reader with
  | (.ok b, r) => (.ok (), { reader := r, byte := b, pos := s.pos.after s.byte })
  | (.error e, r) => (.error e, { s with reader := r })

/-- Goes back to the first byte. If only reading it fails, the stream stands on a NUL at the
start. -/
def reset (s : Stream ρ) : Attempt Unit (Stream ρ) :=
  match Reader.reset s.reader with
  | (.error e, r) => (.error e, { s with reader := r })
  | (.ok (), r) =>
    match Reader.readByte r with
    | (.error e, r) => (.error e, { reader := r, byte := Ascii.nul, pos := .start })
    | (.ok b, r) => (.ok (), { reader := r, byte := b, pos := .start })

/-- A stream on the first byte of a source. An empty source has none. -/
def ofReader (r : ρ) : Except Error (Stream ρ) :=
  match Reader.size r with
  | .error e => .error e
  | .ok 0 => .error (.ofCause (.emptyFile (Reader.path r)))
  | .ok _ =>
    match reset { reader := r, byte := Ascii.nul, pos := .start } with
    | (.ok (), s) => .ok s
    | (.error e, _) => .error e

def close (s : Stream ρ) : Stream ρ :=
  { reader := Reader.close s.reader, byte := Ascii.nul, pos := .start }

theorem left_lt_of_next {s s' : Stream ρ} (h : s.next = (.ok (), s')) :
    Reader.left s'.reader < Reader.left s.reader := by
  unfold next at h
  split at h
  · rename_i b r hr
    obtain ⟨-, rfl⟩ := Prod.mk.inj h
    exact Reader.left_lt_of_readByte hr
  · simp at h

/-- All bytes from the current one on. -/
def drain (s : Stream ρ) : Tape × Stream ρ :=
  match _h : s.next with
  | (.ok (), s') =>
    let (t, last) := drain s'
    (⟨s.mark, t.marks, t.ending⟩, last)
  | (.error e, last) => (⟨s.mark, [], e⟩, last)
termination_by Reader.left s.reader
decreasing_by exact left_lt_of_next _h

end Stream

end Asm6502
