import Asm6502.Lexer

/-!
# Scanning in step with the source

The scan of a source that is still being read. A scanner stands on one byte and sees no further;
it goes on turn by turn, and each turn takes one lexeme, byte by byte, up to where it is sure that
the lexeme has ended:

- on its last byte, so that the scanner has to move once before the next turn (`Step.advance`);
- on the byte behind it, which is left to the next turn (`Step.hold`);
- or at the end of the source, which ends the scan (`Step.exhausted`).

Nothing says that a source ends (`Supply`). So the loops here have no measure: `none` stands for
one that goes on for ever, and that a scan comes to an end is a theorem about its source.
-/

namespace Asm6502

/-- A source that is read byte by byte and can be rewound. It need not end. -/
class Supply (ρ : Type) where
  readByte : ρ → Attempt UInt8 ρ
  reset : ρ → Attempt Unit ρ

/-- Every reader, whatever it promises. -/
instance {ρ : Type} [Reader ρ] : Supply ρ where
  readByte := Reader.readByte
  reset := Reader.reset

/-- Reading on delivers `bs`, one byte after another, and then fails with `e`. -/
inductive Supply.Yields {ρ : Type} [Supply ρ] (e : Error) : ρ → Bytes → Prop where
  | fails {r r' : ρ} : Supply.readByte r = (.error e, r') → Yields e r []
  | next {r r' : ρ} {b : UInt8} {bs : Bytes} : Supply.readByte r = (.ok b, r') →
      Yields e r' bs → Yields e r (b :: bs)

/-- A stream that counts its moves. -/
structure Scanner (ρ : Type) extends Stream ρ where
  offset : Nat

namespace Scanner

/-- Where a turn leaves the scanner. -/
inductive Step where
  /-- On the last byte of the lexeme. -/
  | advance
  /-- On the byte behind the lexeme, which the next turn is to look at. -/
  | hold
  /-- On the last byte of the source. -/
  | exhausted
  deriving DecidableEq, Repr

def Step.afterRun (more : Bool) : Step := if more then .hold else .exhausted

/-- What a turn comes to: the token that it makes, if any, and where it leaves the scanner. -/
abbrev Outcome := Except Error (Option Token × Step)

def settle (source : Path) (pos : Position) (meaning : Meaning) (step : Step) : Outcome :=
  match meaning with
  | .nothing => .ok (none, step)
  | .token t => .ok (some t, step)
  | .fault cause => .error ((Error.ofCause cause).locate source pos)

/-- The answer to a read that failed with `e`. It stands if the source has really ended. -/
def endedBy {α : Type} (e : Error) (a : α) : Except Error α :=
  if e.code = .endOfFile then .ok a else .error e

variable {ρ : Type} [Supply ρ]

/-! ## Moving -/

/-- Moves to the next byte. The answer is whether there is one. -/
def advance (s : Scanner ρ) : Attempt Bool (Scanner ρ) :=
  match Supply.readByte s.reader with
  | (.ok b, r) => (.ok true, ⟨⟨r, b, s.pos.after s.byte⟩, s.offset + 1⟩)
  | (.error e, r) => (endedBy e false, { s with reader := r })

/-- Moves past the current byte, and past every byte of a class behind it, which joins `text`. The
answer is the text, and whether a byte follows it. -/
def readWhile (p : UInt8 → Bool) (text : Bytes) (s : Scanner ρ) :
    Option (Attempt (Bytes × Bool) (Scanner ρ)) :=
  match s.advance with
  | (.error e, s) => some (.error e, s)
  | (.ok false, s) => some (.ok (text, false), s)
  | (.ok true, s) =>
    if p s.byte then s |>.readWhile p (text ++ [s.byte]) else some (.ok (text, true), s)
partial_fixpoint

/-- Goes on with the string that was opened at `pos`; `escaped` if the current byte is a backslash
that counts. -/
def readString (source : Path) (pos : Position) (escaped : Bool) (text : Bytes) (s : Scanner ρ) :
    Option (Outcome × Scanner ρ) :=
  match s.advance with
  | (.error e, s) => some (.error e, s)
  | (.ok false, s) => some (settle source pos (.fault .unterminatedLiteral) .exhausted, s)
  | (.ok true, s) =>
    if s.byte = Ascii.backslash then
      if escaped then s |>.readString source pos false (text ++ [s.byte])
      else s |>.readString source pos true text
    else if s.byte = Ascii.quote then
      if escaped then s |>.readString source pos false (text ++ [s.byte])
      else some (settle source pos (.token (.ofText .literal text source pos.line)) .advance, s)
    else if s.byte = Ascii.lineFeed then
      some (settle source pos (.fault .unterminatedLiteral) .hold, s)
    else s |>.readString source pos false (text ++ [s.byte])
partial_fixpoint

/-! ## Turns -/

variable (source : Path) (s : Scanner ρ)

def readRun (p : UInt8 → Bool) (text : Bytes) (meaning : Bytes → Meaning) :
    Option (Outcome × Scanner ρ) := do
  match ← readWhile p text s with
  | (.error e, s') => some (.error e, s')
  | (.ok (text, more), s') => some (settle source s.pos (meaning text) (.afterRun more), s')

def readWord : Option (Outcome × Scanner ρ) := do
  match ← readWhile Ascii.isWordByte [s.byte] s with
  | (.error e, s') => some (.error e, s')
  | (.ok (text, more), s') =>
    if more ∧ s'.byte = Ascii.colon then
      some (settle source s.pos (.token (.ofText .label text source s.pos.line)) .advance, s')
    else
      let token := Lexeme.wordToken source text s.pos.line
      some (settle source s.pos (.token token) (.afterRun more), s')

def readSigned (radix : Nat) : Option (Outcome × Scanner ρ) :=
  let sign := (Ascii.toChar s.byte).toString
  readRun source s Ascii.isAlphanumeric [] fun digits =>
    Lexeme.scalarMeaning source radix sign digits s.pos.line

/-- One turn: what the current byte starts. -/
def dispatch : Option (Outcome × Scanner ρ) :=
  match ByteClass.of s.byte with
  | .nul | .blank => some (settle source s.pos .nothing .advance, s)
  | .letter => readWord source s
  | .digit => readRun source s Ascii.isAlphanumeric [s.byte] fun digits =>
      Lexeme.scalarMeaning source 10 "" digits s.pos.line
  | .symbol =>
    if s.byte = Ascii.semicolon then
      readRun source s (· != Ascii.lineFeed) [] fun _ => .nothing
    else if s.byte = Ascii.dot then
      readRun source s Ascii.isLetter [] fun name =>
        Lexeme.directiveMeaning source name s.pos.line
    else if s.byte = Ascii.underscore then readWord source s
    else if s.byte = Ascii.quote then readString source s.pos false [] s
    else if s.byte = Ascii.dollar then readSigned source s 16
    else if s.byte = Ascii.percent then readSigned source s 2
    else some (settle source s.pos (Lexeme.signMeaning source ⟨s.byte, s.pos⟩) .advance, s)

/-! ## Scans -/

/-- A turn that has been taken. -/
structure Turn where
  mark : Mark
  /-- The number of moves before the turn, which is the number of its mark. -/
  start : Nat
  /-- The number of the mark that the turn left the scanner on. -/
  stop : Nat
  outcome : Outcome

/-- Where a turn without a fault has left the scanner. -/
def Turn.step? (t : Turn) : Option Step := t.outcome.toOption.map (·.2)

def Turn.token? (t : Turn) : Option Token := t.outcome.toOption.bind (·.1)

/-- The number of the first mark that is left to the next turn. -/
def Turn.next (t : Turn) : Nat := if t.step? = some .hold then t.stop else t.stop + 1

/-- The numbers of the marks that the turn has taken. -/
def Turn.taken (t : Turn) : List Nat := List.range' t.start (t.next - t.start)

/-- A scan that has come to an end. -/
structure Course (ρ : Type) where
  turns : List Turn
  error? : Option Error
  last : Scanner ρ

def Course.cons (t : Turn) (c : Course ρ) : Course ρ := { c with turns := t :: c.turns }

def Course.scan (c : Course ρ) : Scan := ⟨c.turns.filterMap Turn.token?, c.error?⟩

/-- Goes to where the next turn starts. The answer is whether there is one. -/
def proceed (s : Scanner ρ) : Step → Attempt Bool (Scanner ρ)
  | .advance => s.advance
  | .hold => (.ok true, s)
  | .exhausted => (.ok false, s)

/-- Takes turns as long as there are any and none has a fault. -/
def loop (s : Scanner ρ) : Option (Course ρ) := do
  let (outcome, s') ← dispatch source s
  let turn : Turn := ⟨⟨s.byte, s.pos⟩, s.offset, s'.offset, outcome⟩
  match outcome with
  | .error e => some ⟨[turn], some e, s'⟩
  | .ok (_, step) =>
    match s'.proceed step with
    | (.error e, s'') => some ⟨[turn], some e, s''⟩
    | (.ok false, s'') => some ⟨[turn], none, s''⟩
    | (.ok true, s'') => return (← s'' |>.loop).cons turn
partial_fixpoint

/-- Scans what a source delivers after a reset. If that is nothing, there is no turn. -/
def ofSupply (r : ρ) : Option (Course ρ) :=
  match Supply.reset r with
  | (.error e, r) => some ⟨[], some e, ⟨⟨r, Ascii.nul, .start⟩, 0⟩⟩
  | (.ok (), r) =>
    match Supply.readByte r with
    | (.error e, r) => some ⟨[], some e, ⟨⟨r, Ascii.nul, .start⟩, 0⟩⟩
    | (.ok b, r) => loop source ⟨⟨r, b, .start⟩, 0⟩

end Scanner

end Asm6502
