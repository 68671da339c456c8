import Asm6502.Ascii

/-!
# UTF-8

`pieces` cuts bytes into encoded characters and maximal invalid parts: a part is as long as it
can be while it still starts some character. A strict reading exists when no part is invalid; the
lossy reading shows each invalid part as one replacement character.
-/

namespace Asm6502.Utf8

/-- A byte that continues a character. -/
def isTail (b : UInt8) : Bool := 0x80 ≤ b && b ≤ 0xbf

/-- How a character of several bytes begins: the number of bytes that follow, the range of the
first of them, and the bits that the leading byte holds. -/
structure Lead where
  tails : Nat
  low : UInt8 := 0x80
  high : UInt8 := 0xbf
  bits : Nat

/-- The leading bytes. The narrow ranges keep out overlong forms, surrogates and everything above
the last character. -/
def Lead.of? (b : UInt8) : Option Lead :=
  if 0xc2 ≤ b && b ≤ 0xdf then some { tails := 1, bits := b.toNat - 0xc0 }
  else if b == 0xe0 then some { tails := 2, low := 0xa0, bits := 0 }
  else if b == 0xed then some { tails := 2, high := 0x9f, bits := 0xd }
  else if 0xe1 ≤ b && b ≤ 0xef then some { tails := 2, bits := b.toNat - 0xe0 }
  else if b == 0xf0 then some { tails := 3, low := 0x90, bits := 0 }
  else if b == 0xf4 then some { tails := 3, high := 0x8f, bits := 4 }
  else if 0xf1 ≤ b && b ≤ 0xf3 then some { tails := 3, bits := b.toNat - 0xf0 }
  else none

/-- The longest run of at most `n` continuing bytes, the first of them between `low` and `high`,
and the bytes after it. -/
def takeTails (low high : UInt8) : Nat → Bytes → Bytes × Bytes
  | n + 1, b :: rest =>
    if low ≤ b && b ≤ high then
      let (run, rest) := takeTails 0x80 0xbf n rest
      (b :: run, rest)
    else ([], b :: rest)
  | _, rest => ([], rest)

/-- The piece that starts at `b`, `none` if it is invalid, and the bytes after it. -/
def takePiece (b : UInt8) (rest : Bytes) : Option Char × Bytes :=
  if Ascii.isAscii b then (some (Ascii.toChar b), rest)
  else
    match Lead.of? b with
    | none => (none, rest)
    | some lead =>
      let (run, rest) := takeTails lead.low lead.high lead.tails rest
      if run.length = lead.tails then
        (some (Char.ofNat (run.foldl (fun n t => n * 0x40 + (t.toNat - 0x80)) lead.bits)), rest)
      else (none, rest)

theorem takeTails_length_le (n : Nat) (rest : Bytes) (low high : UInt8) :
    (takeTails low high n rest).2.length ≤ rest.length := by
  induction n generalizing rest low high with
  | zero => cases rest <;> simp [takeTails]
  | succ n ih =>
    cases rest with
    | nil => simp [takeTails]
    | cons b rest =>
      simp only [takeTails]
      split
      · exact Nat.le_succ_of_le (ih rest 0x80 0xbf)
      · exact Nat.le_refl _

theorem takePiece_length_le (b : UInt8) (rest : Bytes) :
    (takePiece b rest).2.length ≤ rest.length := by
  unfold takePiece
  split
  · exact Nat.le_refl _
  · split
    · exact Nat.le_refl _
    · rename_i lead _
      have := takeTails_length_le lead.tails rest lead.low lead.high
      dsimp only
      split <;> exact this

/-- The characters and invalid parts of some bytes, in order. -/
def pieces : Bytes → List (Option Char)
  | [] => []
  | b :: rest => (takePiece b rest).1 :: pieces (takePiece b rest).2
termination_by bs => bs.length
decreasing_by
  have := takePiece_length_le b rest
  simp only [List.length_cons]
  omega

/-- The text of well-formed bytes. -/
def decode? (bs : Bytes) : Option String := ((pieces bs).mapM id).map String.ofList

/-- The text of any bytes, each invalid part shown as `U+FFFD`. -/
def decodeLossy (bs : Bytes) : String :=
  String.ofList ((pieces bs).map fun c => c.getD '\uFFFD')

/-- The bytes of a text. -/
def encode (s : String) : Bytes := s.toList.flatMap String.utf8EncodeChar

end Asm6502.Utf8
