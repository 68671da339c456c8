import Asm6502.Arena
import Asm6502.Event
import Asm6502.Scan

/-!
# Lexers

A lexer scans its whole source when it is made. From then on it walks its tokens with a cursor: an
index, and the handle of the token at that index. The cursor moves forward only, until the lexer
is rewound, and a move that fails moves nothing. A closed lexer has no tokens.
-/

namespace Asm6502

structure Lexer (ρ : Type) where
  stream : Stream ρ
  tokens : Arena Token
  index : Nat
  cursor : Option Handle

namespace Lexer

variable {ρ : Type}

def size (l : Lexer ρ) : Nat := l.tokens.size

def isEmpty (l : Lexer ρ) : Bool := l.tokens.isEmpty

/-- The token under the cursor. -/
def get (l : Lexer ρ) : Except Error Token :=
  match l.cursor.elim (l.tokens.handleAt l.index) .ok with
  | .error e => .error e
  | .ok h =>
    match l.tokens.value? h with
    | some t => .ok t
    | none => .error (.ofCause (.indexOutOfRange l.index))

/-- Moves the cursor to the following token. -/
def next (l : Lexer ρ) : Attempt Unit (Lexer ρ) :=
  if l.tokens.size ≤ l.index + 1 then (.error (.ofCause (.noNextToken l.index)), l)
  else
    match l.cursor with
    | some h => (.ok (), { l with index := l.index + 1, cursor := l.tokens.next? h })
    | none =>
      match l.tokens.handleAt (l.index + 1) with
      | .ok h => (.ok (), { l with index := l.index + 1, cursor := some h })
      | .error e => (.error e, { l with index := l.index + 1 })

theorem next_eq_ok {l l' : Lexer ρ} (h : l.next = (.ok (), l')) :
    l'.tokens = l.tokens ∧ l'.index = l.index + 1 ∧ l.index + 1 < l.tokens.size := by
  unfold next at h
  split at h
  · simp at h
  · split at h
    · obtain ⟨-, rfl⟩ := Prod.mk.inj h
      exact ⟨rfl, rfl, by omega⟩
    · split at h
      · obtain ⟨-, rfl⟩ := Prod.mk.inj h
        exact ⟨rfl, rfl, by omega⟩
      · simp at h

variable [Reader ρ]

def source (l : Lexer ρ) : Path := l.stream.path

/-- Moves the cursor to the first token and the stream to its first byte. -/
def reset (l : Lexer ρ) : Attempt Unit (Lexer ρ) × List Event :=
  match l.stream.reset with
  | (.error e, s) => ((.error e, { l with stream := s }), [])
  | (.ok (), s) =>
    ((.ok (), { l with stream := s, index := 0, cursor := l.tokens.head }), [.rewound s.path])

def close (l : Lexer ρ) : Lexer ρ :=
  { stream := l.stream.close, tokens := l.tokens.clear, index := 0, cursor := none }

/-- The lexer of a stream on its first byte, with what was reported in scanning. -/
def ofStream (s : Stream ρ) : Except Error (Lexer ρ) × List Event :=
  let (tape, s) := s.drain
  let scan := Scan.ofMarks s.path tape.fault? tape.marks
  match scan.error? with
  | some e => (.error e, scan.tokens.map .emitted)
  | none =>
    let tokens := scan.tokens ++ [Token.finish]
    let l : Lexer ρ := { stream := s, tokens := .ofList tokens, index := 0, cursor := none }
    let report := tokens.map .emitted ++ [.tokenized s.path l.size]
    match l.reset with
    | ((.ok (), l), rewound) => (.ok l, report ++ rewound)
    | ((.error e, _), rewound) => (.error e, report ++ rewound)

/-- The lexer of a source. -/
def ofReader (r : ρ) : Except Error (Lexer ρ) × List Event :=
  match Stream.ofReader r with
  | .error e => (.error e, [])
  | .ok s => ofStream s

end Lexer

end Asm6502
