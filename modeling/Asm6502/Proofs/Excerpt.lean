import Asm6502.Proofs.Caret
import Asm6502.Proofs.Returns

/-!
# The line that a diagnostic shows

The lexer counts line feeds and bytes, and a diagnostic splits the text into lines of characters.
They agree on the lexeme that an error is about (`Diagnostic.shows_line_of_fault`): the line of its
number is there, it is the line that the lexeme stands on, and the lexeme starts at the byte of its
column. The lexeme never goes beyond the line. Beyond the largest column the line is still right,
but the column is that of a byte before the lexeme (`Diagnostic.byte_beyond_last_column`).
-/

namespace Asm6502

open Utf8 (encodeList)
open Grammar (Munch)

variable {lex rest : Bytes} {cause : Cause}

/-! ## How lexemes with a fault start -/

/-- A lexeme with this fault starts with the byte. -/
def Cause.StartsWith : Cause → UInt8 → Prop
  | .unsupportedDirective _, b => b = Ascii.dot
  | .unterminatedLiteral, b => b = Ascii.quote
  | .invalidScalar _, b | .scalarOverflow _, b =>
    b = Ascii.dollar ∨ b = Ascii.percent ∨ Ascii.isDigit b = true
  | .unsupportedSymbol byte, b | .invalidCharacter byte, b => b = byte
  | _, _ => False

theorem Grammar.Numeral.startsWith {radix : Nat} {sign : String} {run : Bytes} {b : UInt8}
    (h : Numeral radix sign run (.fault cause))
    (hb : b = Ascii.dollar ∨ b = Ascii.percent ∨ Ascii.isDigit b = true) : cause.StartsWith b := by
  cases h with
  | empty => exact hb
  | invalid => exact hb
  | overflow => exact hb

theorem Grammar.Munch.startsWith (h : Munch lex rest (.fault cause)) :
    ∃ b more, lex = b :: more ∧ cause.StartsWith b := by
  cases h with
  | decimal hb _ _ hn => exact ⟨_, _, rfl, hn.startsWith (.inr (.inr hb))⟩
  | hexadecimal _ _ hn => exact ⟨_, _, rfl, hn.startsWith (.inl rfl)⟩
  | binary _ _ hn => exact ⟨_, _, rfl, hn.startsWith (.inr (.inl rfl))⟩
  | unsupportedDirective | unterminated | unsupportedSymbol | invalidCharacter =>
    exact ⟨_, _, rfl, rfl⟩

/-- A lexeme with a fault stays on its line. -/
theorem Grammar.Munch.fault_on_line (h : Munch lex rest (.fault cause)) :
    Ascii.lineFeed ∉ lex := by
  rcases h.lineFeed with ⟨-, hsense⟩ | hline
  · cases hsense
  · exact hline

/-! ## Bytes of a line -/

theorem Utf8.length_encodeList_lt (before : List Char) (c : Char) (more : List Char) :
    (encodeList before).length < (encodeList (before ++ c :: more)).length := by
  have hmore : (c :: more).length ≤ (encodeList (c :: more)).length := length_le_encodeList _
  rw [List.length_cons] at hmore
  rw [encodeList_append, List.length_append]
  omega

/-- The byte behind some characters is the first one of what follows them. -/
theorem Utf8.getElem?_encodeList (before after : List Char) :
    (encodeList (before ++ after))[(encodeList before).length]? = (encodeList after).head? := by
  rw [encodeList_append, List.getElem?_append_right (Nat.le_refl _), Nat.sub_self,
    List.head?_eq_getElem?]

/-- The first byte of two texts that start with the same character. -/
theorem Utf8.head?_encodeList (c : Char) (cs ds : List Char) :
    (encodeList (c :: cs)).head? = (encodeList (c :: ds)).head? := by
  have hne : String.utf8EncodeChar c ≠ [] := by
    intro hnone
    have := c.utf8Size_pos
    rw [← String.length_utf8EncodeChar, hnone, List.length_nil] at this
    omega
  rw [encodeList_cons, encodeList_cons, List.head?_append_of_ne_nil _ hne,
    List.head?_append_of_ne_nil _ hne]

namespace Diagnostic

variable {path : Path} {text : String} {e : Error}

/-- The error `e` of `text` is at `pos`: its lexeme starts with the byte `b`, behind the lines
`above` and the characters `before` on its own `line`, and stays on that line. -/
structure OnLine (path : Path) (text : String) (e : Error) (pos : Position)
    (above before line : List Char) (b : UInt8) : Prop where
  place_eq : e.place = some ⟨path, pos⟩
  fault : ∃ c, FaultAt path text e above before c ∧ before ++ [c] <+: line
  lexeme : ∃ lex rest, Utf8.encode text = encodeList (above ++ before) ++ (lex ++ rest) ∧
    Munch lex rest (.fault e.cause) ∧ Ascii.lineFeed ∉ lex ∧ lex.head? = some b
  starts : e.cause.StartsWith b
  stands : Lines.Stands text.toList above line

/-- The line of a lexical error is among the lines of its text, and is the one that its lexeme
stands on. The column is that of a byte of the line, and if the bytes before the lexeme can be
counted in 32 bits, the lexeme starts with that byte, behind whole characters. Below the largest
column the line stands next to its number in the diagnostic. -/
theorem shows_line_of_fault (he : Lexer.FailsWith path (Utf8.encode text) e)
    (hlines : (Utf8.encode text).count Ascii.lineFeed < 0xffffffff) :
    ∃ pos above before line b, OnLine path text e pos above before line b ∧
      pos.line.toNat = above.count '\n' + 1 ∧
      (Lines.split text)[pos.line.toNat - 1]? = some (String.ofList line) ∧
      pos.column.toNat = min (encodeList before).length 0xffffffff ∧
      pos.column.toNat < (encodeList line).length ∧
      ((encodeList before).length ≤ 0xffffffff →
        (encodeList line).take pos.column.toNat = encodeList before ∧
          (encodeList line)[pos.column.toNat]? = some b) ∧
      (pos.column < 0xffffffff →
        render [e] text = layout e ⟨path, pos⟩ (String.ofList line)
          (padding (String.ofList line) pos.column.toNat) ++ "\n\n") := by
  obtain ⟨above, before, c, hfault⟩ := exists_faultAt he
  obtain ⟨more, hstands⟩ := hfault.stands
  obtain ⟨after, lex, rest, cause, htext, hafter, hm, rfl⟩ := hfault.lexeme
  obtain ⟨b, tail, rfl, hb⟩ := hm.startsWith
  have hnumber := hfault.number hlines
  have hcolumn := hfault.column
  have hsplit : (Lines.split text)[(Position.past (encodeList (above ++ before))).line.toNat - 1]? =
      some (String.ofList (before ++ c :: more)) := by
    rw [hnumber, Nat.add_sub_cancel]
    exact hstands.getElem?_split
  have hbytes : Utf8.encode text = encodeList (above ++ before) ++ (b :: tail ++ rest) := by
    rw [Utf8.encode_eq, htext, Utf8.encodeList_append, hafter]
  have hhead : (encodeList (c :: more)).head? = some b := by
    rw [Utf8.head?_encodeList c more after, hafter]
    rfl
  have hon : OnLine path text _ _ above before (before ++ c :: more) b :=
    ⟨hfault.place_eq, ⟨c, hfault, by simp⟩, ⟨b :: tail, rest, hbytes, hm, hm.fault_on_line, rfl⟩,
      hb, hstands⟩
  refine ⟨_, above, before, before ++ c :: more, b, hon, hnumber, hsplit, hcolumn, ?_,
    fun hfits => ?_, fun hfits => ?_⟩
  · have hlength := Utf8.length_encodeList_lt before c more
    omega
  · rw [hcolumn, Nat.min_eq_left hfits, Utf8.getElem?_encodeList, hhead, Utf8.encodeList_append]
    exact ⟨List.take_left, rfl⟩
  · have hrender := render_singleton hfault.place_eq hfits text
    rwa [sourceLine, hsplit] at hrender

/-- A directive that is none, behind a literal with four bytes and between carriage returns. -/
theorem shows_line_of_fault_directive :
    let text := "NOP\r\n\"é\" .X\r\n"
    let line := "\"é\" .X"
    let place : Place := ⟨⟨"x.s"⟩, ⟨2, 5⟩⟩
    let e := (Error.ofCause (.unsupportedDirective "X")).locate place.path place.position
    (Lines.split text)[1]? = some line ∧ (Utf8.encode line)[5]? = some Ascii.dot ∧
      render [e] text = layout e place line "     " ++ "\n\n" := by
  intro text line place e
  have he : Lexer.FailsWith place.path (Utf8.encode text) e := ⟨rfl, by decide +kernel⟩
  obtain ⟨pos, above, before, cs, b, hon, -, hsplit, hcolumn, -, hbyte, hrender⟩ :=
    shows_line_of_fault he (by decide)
  obtain rfl : place.position = pos := congrArg Place.position (Option.some.inj hon.place_eq)
  have hlisted : (Lines.split text)[1]? = some line := by decide +kernel
  obtain rfl : line.toList = cs := by
    rw [Option.some.inj (hlisted.symm.trans hsplit), String.toList_ofList]
  rw [String.ofList_toList] at hrender
  obtain rfl : b = Ascii.dot := hon.starts
  have hpad : padding line 5 = "     " := by decide +kernel
  have hshown : render [e] text = layout e place line (padding line 5) ++ "\n\n" :=
    hrender (by decide)
  rw [hpad] at hshown
  have hwidth : (5 : Nat) = min (encodeList before).length 0xffffffff := hcolumn
  exact ⟨hlisted, (hbyte (by omega)).2, hshown⟩

theorem encodeList_spaces (n : Nat) :
    encodeList (List.replicate n ' ') = List.replicate n Ascii.space := by
  induction n with
  | zero => rfl
  | succ n ih =>
    rw [List.replicate_succ, Utf8.encodeList_cons, ih]
    rfl

theorem failsWith_behind_spaces (path : Path) (n : Nat) :
    Lexer.FailsWith path (List.replicate n Ascii.space ++ [0x3d])
      ((Error.ofCause (.unsupportedSymbol 0x3d)).locate path ⟨1, Position.saturate n⟩) := by
  have hfeed : Ascii.lineFeed ∉ List.replicate n Ascii.space := fun hmem =>
    absurd (List.eq_of_mem_replicate hmem) (by decide)
  have hpast : Position.past (List.replicate n Ascii.space) = ⟨1, Position.saturate n⟩ := by
    rw [Position.past, Position.lastLine_of_not_mem hfeed, List.count_eq_zero_of_not_mem hfeed,
      List.length_replicate]
    rfl
  rw [← hpast]
  exact Lexer.failsWith_iff.2 ⟨[], .blanks rfl (.fault (munch_equals []))⟩

/-- Behind 2 ^ 32 spaces the column of a sign is the one of the last space. -/
theorem byte_beyond_last_column :
    let text := String.ofList (List.replicate 0x100000000 ' ' ++ ['='])
    let e := (Error.ofCause (.unsupportedSymbol 0x3d)).locate ⟨"x.s"⟩ ⟨1, 0xffffffff⟩
    Lexer.FailsWith ⟨"x.s"⟩ (Utf8.encode text) e ∧
      (Utf8.encode text).count Ascii.lineFeed < 0xffffffff ∧
      (Lines.split text)[0]? = some text ∧
      (Utf8.encode text)[0xffffffff]? = some Ascii.space ∧ ¬ e.cause.StartsWith Ascii.space := by
  intro text e
  obtain ⟨n, hn⟩ : ∃ n, n = 0x100000000 := ⟨_, rfl⟩
  have htext : text = String.ofList (List.replicate n ' ' ++ ['=']) := by rw [hn]
  have hbytes : Utf8.encode text = List.replicate n Ascii.space ++ [0x3d] := by
    rw [htext, Utf8.encode_eq, String.toList_ofList, Utf8.encodeList_append, encodeList_spaces]
    rfl
  have hlast : Position.saturate n = 0xffffffff := by
    rw [hn]
    decide
  have hfails := failsWith_behind_spaces ⟨"x.s"⟩ n
  rw [hlast] at hfails
  have hfeed : '\n' ∉ text.toList := by
    rw [htext, String.toList_ofList]
    simp
  have hstands : Lines.Stands text.toList [] text.toList := by
    refine ⟨.inl rfl, hfeed, .inl ⟨(List.nil_append _).symm, ?_⟩⟩
    rw [htext, String.toList_ofList]
    simp
  have hstarts : ¬ e.cause.StartsWith Ascii.space := by
    show ¬ Ascii.space = 0x3d
    decide
  refine ⟨hbytes ▸ hfails, ?_, ?_, ?_, hstarts⟩
  · have hcount : (Utf8.encode text).count Ascii.lineFeed = 0 := by
      rw [Utf8.encode_eq, Utf8.count_encodeList rfl]
      exact List.count_eq_zero_of_not_mem hfeed
    omega
  · have hline := hstands.getElem?_split
    rwa [String.ofList_toList] at hline
  · have hlt : 0xffffffff < (List.replicate n Ascii.space).length := by
      rw [List.length_replicate]
      omega
    rw [hbytes, List.getElem?_append_left hlt, List.getElem?_eq_getElem hlt, List.getElem_replicate]

end Diagnostic

end Asm6502
