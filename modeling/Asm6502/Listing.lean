import Asm6502.Lexer

/-!
# Listings

A listing has one line per token. It is written token by token from the cursor of a lexer on, and
the cursor stays on the token whose line could not be written, or on the last one. A sink takes
what it is given in parts of its own choice, until its room is used up.
-/

namespace Asm6502

/-- Somewhere to write to. -/
class Writer (ω : Type) where
  /-- Takes all of the bytes, or fails and may have taken some of them. -/
  write : Bytes → ω → Except String Unit × ω
  flush : ω → Except String Unit × ω

/-- A writer that keeps what it takes. -/
structure Sink where
  received : Array UInt8 := #[]
  /-- The bytes that still fit, or no limit. -/
  room : Option Nat := none
  /-- The number of parts taken. -/
  taken : Nat := 0
  /-- How much of an offer is taken at each turn; at least one byte is. -/
  pace : Nat → Nat → Nat := fun _ offered => offered
  /-- Why flushing fails, if it does. -/
  flushFault : Option String := none

namespace Sink

/-- Why a sink without room refuses. -/
def full : String := "writer full"

/-- Takes a part of the bytes offered and gives its length. -/
def offer (bytes : Bytes) (s : Sink) : Except String Nat × Sink :=
  if s.room = some 0 then (.error full, s)
  else
    let fitting := min bytes.length (s.room.getD bytes.length)
    let part := min fitting (max 1 (s.pace s.taken fitting))
    (.ok part, { s with
      received := s.received ++ (bytes.take part).toArray
      room := s.room.map (· - part)
      taken := s.taken + 1 })

theorem offer_eq_ok {bytes : Bytes} {s s' : Sink} {n : Nat} (hb : bytes ≠ [])
    (h : s.offer bytes = (.ok n, s')) : 0 < n := by
  have hl : 0 < bytes.length := List.length_pos_iff.2 hb
  unfold offer at h
  split at h
  · simp at h
  · rename_i hr
    obtain ⟨h1, -⟩ := Prod.mk.inj h
    obtain rfl := Except.ok.inj h1
    cases hroom : s.room with
    | none => simp only [Option.getD_none]; omega
    | some k =>
      have : k ≠ 0 := by rintro rfl; exact hr hroom
      simp only [Option.getD_some]
      omega

/-- Offers bytes until all of them are taken. -/
def write (bytes : Bytes) (s : Sink) : Except String Unit × Sink :=
  if _hb : bytes = [] then (.ok (), s)
  else
    match _h : s.offer bytes with
    | (.error reason, s) => (.error reason, s)
    | (.ok n, s) => write (bytes.drop n) s
termination_by bytes.length
decreasing_by
  have := offer_eq_ok _hb _h
  have := List.length_pos_iff.2 _hb
  simp only [List.length_drop]
  omega

def flush (s : Sink) : Except String Unit × Sink :=
  match s.flushFault with
  | some reason => (.error reason, s)
  | none => (.ok (), s)

instance : Writer Sink where
  write := Sink.write
  flush := Sink.flush

end Sink

/-- A token's line as it is written. -/
def Token.listingBytes (t : Token) : Bytes := Utf8.encode (t.listing ++ "\n")

namespace Lexer

variable {ρ ω : Type} [Reader ρ] [Writer ω]

/-- Writes the listing from the cursor on. -/
def dump (l : Lexer ρ) (w : ω) : Attempt Unit (Lexer ρ) × ω :=
  match l.get with
  | .error e => ((.error e, l), w)
  | .ok t =>
    match Writer.write t.listingBytes w with
    | (.error reason, w) => ((.error (.ofCause (.writeFailed reason)), l), w)
    | (.ok (), w) =>
      match _h : l.next with
      | (.ok (), l') => dump l' w
      | (.error e, l') =>
        if e.code = .noNextToken then
          match Writer.flush w with
          | (.ok (), w) => ((.ok (), l'), w)
          | (.error reason, w) => ((.error (.ofCause (.flushFailed reason)), l'), w)
        else ((.error e, l'), w)
termination_by l.tokens.size - l.index
decreasing_by
  obtain ⟨ht, hi, hlt⟩ := next_eq_ok _h
  rw [ht, hi]
  omega

end Lexer

end Asm6502
