import Asm6502.Keyword
import Asm6502.Path
import Asm6502.Text.Utf8

/-!
# Tokens

A token has a kind, a number within its kind, a line of a source, and a payload: the bytes of a
name or literal, or a 16-bit scalar. The last token of every source is `Token.finish`, which
belongs to no line. `Token.listing` is the line that a token has in a listing.
-/

namespace Asm6502

inductive Payload where
  | text (bytes : Bytes)
  | scalar (value : UInt16)
  deriving DecidableEq, Repr

structure Token where
  kind : TokenKind
  number : Nat
  source : Option Path
  line : UInt32
  payload : Payload := .scalar 0
  deriving DecidableEq, Repr

namespace Token

/-- The end of a source. -/
def finish : Token := { kind := .finish, number := 0, source := none, line := 0 }

def isFinish (t : Token) : Bool := t.kind == .finish

def ofKeyword {κ : Type} [DecidableEq κ] [Keyword κ] (k : κ) (source : Path) (line : UInt32) :
    Token :=
  { kind := Keyword.kind κ, number := Keyword.number k, source := some source, line }

def ofText (kind : TokenKind) (bytes : Bytes) (source : Path) (line : UInt32) : Token :=
  { kind, number := 0, source := some source, line, payload := .text bytes }

def ofScalar (value : UInt16) (source : Path) (line : UInt32) : Token :=
  { kind := .scalar, number := 0, source := some source, line, payload := .scalar value }

/-- The bytes of a token that carries text. -/
def text? (t : Token) : Option Bytes :=
  match t.payload with
  | .text bytes => some bytes
  | .scalar _ => none

/-- The scalar of a token that carries no text. -/
def scalar? (t : Token) : Option UInt16 :=
  match t.payload with
  | .text _ => none
  | .scalar value => some value

/-- The keyword that a token of the table's kind stands for. -/
def keyword? (κ : Type) [Keyword κ] (t : Token) : Option κ :=
  if t.kind = Keyword.kind κ then Keyword.ofNumber? t.number else none

/-- The payload as a listing shows it: text in quotes but not escaped, a scalar in hexadecimal and
decimal. Only scalar tokens show their scalar. -/
def payloadText (t : Token) : String :=
  match t.payload with
  | .text bytes => s!" \"{Utf8.decodeLossy bytes}\""
  | .scalar value =>
    if t.kind = .scalar then s!" {Ascii.hex 4 value.toNat} ({value})" else ""

/-- The line of a token in a listing, without its line feed. -/
def listing (t : Token) : String :=
  s!"[{t.kind.name}:{t.number}]" ++
    match t.source with
    | none => " END"
    | some source => t.payloadText ++ s!" ({source.text}@{t.line})"

/-- Equality of tokens, sources compared by their components. -/
def same (t u : Token) : Bool :=
  t.kind == u.kind && t.number == u.number && t.line == u.line && t.payload == u.payload &&
    match t.source, u.source with
    | some p, some q => p.same q
    | none, none => true
    | _, _ => false

end Token

end Asm6502
