import Asm6502.Text.Utf8

/-!
# Byte classes

How the classes of bytes lie in each other, and what the class of a first byte says. ASCII bytes
decode to themselves.
-/

namespace Asm6502

/-- A fact about bytes is checked on all of them. -/
@[elab_as_elim]
theorem forall_byte {p : UInt8 → Prop} (h : ∀ n : Fin 256, p (UInt8.ofFin n)) (b : UInt8) : p b :=
  h b.toFin

namespace Ascii

theorem isAlphanumeric_of_isLetter {b : UInt8} (h : isLetter b = true) :
    isAlphanumeric b = true := by
  simp [isAlphanumeric, h]

theorem isWordByte_of_isAlphanumeric {b : UInt8} (h : isAlphanumeric b = true) :
    isWordByte b = true := by
  simp [isWordByte, h]

theorem isWordByte_of_isLetter {b : UInt8} (h : isLetter b = true) : isWordByte b = true :=
  isWordByte_of_isAlphanumeric (isAlphanumeric_of_isLetter h)

theorem isAscii_of_isAlphanumeric {b : UInt8} : isAlphanumeric b = true → isAscii b = true :=
  forall_byte (by decide +kernel) b

theorem isAscii_of_isLetter {b : UInt8} (h : isLetter b = true) : isAscii b = true :=
  isAscii_of_isAlphanumeric (isAlphanumeric_of_isLetter h)

end Ascii

namespace ByteClass

variable {b : UInt8}

theorem of_eq_nul : ByteClass.of b = .nul ↔ b = Ascii.nul := forall_byte (by decide +kernel) b

theorem of_eq_letter : ByteClass.of b = .letter ↔ Ascii.isLetter b = true :=
  forall_byte (by decide +kernel) b

theorem of_eq_digit : ByteClass.of b = .digit ↔ Ascii.isDigit b = true :=
  forall_byte (by decide +kernel) b

theorem of_eq_blank : ByteClass.of b = .blank ↔ Ascii.isBlank b = true :=
  forall_byte (by decide +kernel) b

theorem of_eq_symbol_of_not_ascii : Ascii.isAscii b = false → ByteClass.of b = .symbol :=
  forall_byte (by decide +kernel) b

end ByteClass

namespace Utf8

theorem pieces_ascii {bs : Bytes} (h : ∀ b ∈ bs, Ascii.isAscii b = true) :
    pieces bs = bs.map fun b => some (Ascii.toChar b) := by
  induction bs with
  | nil => simp [pieces]
  | cons b bs ih =>
    obtain ⟨hb, hbs⟩ := List.forall_mem_cons.1 h
    have hpiece : takePiece b bs = (some (Ascii.toChar b), bs) := by simp [takePiece, hb]
    rw [pieces, hpiece, ih hbs]
    rfl

theorem decodeLossy_ascii {bs : Bytes} (h : ∀ b ∈ bs, Ascii.isAscii b = true) :
    decodeLossy bs = String.ofList (bs.map Ascii.toChar) := by
  rw [decodeLossy, pieces_ascii h, List.map_map]
  rfl

end Utf8

end Asm6502
