import Asm6502.Diagnostic
import Asm6502.Proofs.Texts
import Asm6502.Proofs.Text.Lines

/-!
# Where the caret stands

A column counts bytes, and the text before the caret takes as many characters of the line. So the
caret of a diagnostic stands under the start of the lexeme that it is about if all characters before
that lexeme on its line are ASCII, and further right if not (`Diagnostic.caret_under_fault_iff`).
The line that is shown is the one of the lexeme either way.
-/

namespace Asm6502

open Position (past lastLine)
open Utf8 (encodeList)
open Grammar (Munch)

/-! ## The column of a fault -/

theorem Position.lastLine_of_not_mem {bs : Bytes} (h : Ascii.lineFeed ∉ bs) :
    lastLine bs = bs.length := by
  have hcount := lineStart_count bs []
  rwa [List.count_eq_zero_of_not_mem h, lineStart, Nat.zero_add] at hcount

/-- The column behind a line of which `before` has been read. -/
theorem Position.lastLine_encodeList {above before : List Char}
    (habove : above = [] ∨ above.getLast? = some '\n') (hbefore : '\n' ∉ before) :
    lastLine (encodeList (above ++ before)) = (encodeList before).length := by
  have hfeed : Ascii.lineFeed ∉ encodeList before := by rwa [Utf8.mem_encodeList rfl]
  rcases habove with rfl | hlast
  · exact lastLine_of_not_mem hfeed
  · obtain ⟨init, rfl⟩ := List.getLast?_eq_some_iff.1 hlast
    have hcode : encodeList (init ++ ['\n'] ++ before) =
        encodeList init ++ Ascii.lineFeed :: encodeList before := by
      rw [Utf8.encodeList_append, Utf8.encodeList_append, List.append_assoc]
      rfl
    rw [hcode, lastLine_append_lineFeed, lastLine_of_not_mem hfeed]

/-- A lexeme with a fault starts with a byte that ends no line. -/
theorem Grammar.Munch.fault_head {lex rest : Bytes} {cause : Cause}
    (h : Munch lex rest (.fault cause)) :
    ∃ b more, lex = b :: more ∧ Ascii.isBlank b = false := by
  have hdigit : ∀ {b : UInt8}, Ascii.isDigit b = true → Ascii.isBlank b = false := by
    intro b
    exact forall_byte (by decide +kernel) b
  cases h with
  | decimal hb => exact ⟨_, _, rfl, hdigit hb⟩
  | hexadecimal | binary | unsupportedDirective | unterminated => exact ⟨_, _, rfl, rfl⟩
  | unsupportedSymbol hb =>
    refine ⟨_, _, rfl, ?_⟩
    by_contra hblank
    have hclass := hb.1
    rw [ByteClass.of_eq_blank.2 (by simpa using hblank)] at hclass
    cases hclass
  | @invalidCharacter b _ hb =>
    refine ⟨_, _, rfl, ?_⟩
    by_contra hblank
    have hascii := Ascii.isAscii_of_isBlank (b := b) (by simpa using hblank)
    simp [hascii] at hb

namespace Diagnostic

/-- The lexeme of `text` that the error `e` is about: it starts with `c`, behind the lines `above`
and the characters `before` on its own line. What stands before it comes to tokens. -/
structure FaultAt (path : Path) (text : String) (e : Error) (above before : List Char) (c : Char) :
    Prop where
  above_ends : above = [] ∨ above.getLast? = some '\n'
  before_line : '\n' ∉ before
  clean : ∃ ts, Lexer.LexesTo path (encodeList (above ++ before)) ts
  lexeme : ∃ after lex rest cause, text.toList = above ++ before ++ c :: after ∧
    encodeList (c :: after) = lex ++ rest ∧ Munch lex rest (.fault cause) ∧
    e = (Error.ofCause cause).locate path (past (encodeList (above ++ before)))

variable {path : Path} {text : String} {e : Error} {place : Place} {above before after : List Char}
  {c : Char}

theorem exists_faultAt (he : Lexer.FailsWith path (Utf8.encode text) e) :
    ∃ above before c, FaultAt path text e above before c := by
  obtain ⟨ts, hd⟩ := Lexer.failsWith_iff.1 he
  obtain ⟨head, lex, rest, cause, hnow, hhead, hm, rfl, ⟨cs, rfl⟩, ⟨after, hafter⟩⟩ :=
    hd.first_fault_text (Utf8.isText_encode text)
  rw [hafter, ← Utf8.encodeList_append, Utf8.encode_eq] at hnow
  obtain ⟨above, before, rfl, habove, hbefore⟩ := Lines.exists_line cs
  cases after with
  | nil => exact absurd (List.append_eq_nil_iff.1 hafter).1 hm.ne_nil
  | cons c after =>
    exact ⟨above, before, c, habove, hbefore, ⟨ts, Lexer.lexesTo_iff.2 hhead⟩, after, lex, rest,
      cause, Utf8.encodeList_inj hnow, hafter.symm, hm, rfl⟩

/-! ## What is shown -/

/-- What stands before a caret under the character behind `before`. -/
def blanked (before : List Char) : List Char := before.map fun c => if isKept c then c else ' '

/-- The diagnostic of an error at a place: the line that it shows, and what stands before the
caret. -/
def layout (e : Error) (place : Place) (line pad : String) : String :=
  let number := toString place.position.line
  let gutter := String.ofList (List.replicate number.length ' ')
  s!"{e.category.name} --> {place.path.text}:{number}:{place.position.column.toNat + 1}\n" ++
  s!"{gutter} |\n" ++
  s!"{number} | {line}\n" ++
  s!"{gutter} | {pad}^ {e.message}"

/-- A column that is not the largest one is shown as the number of its character. -/
theorem render_singleton (he : e.place = some place)
    (hcolumn : place.position.column < 0xffffffff) (text : String) :
    let line := sourceLine (Lines.split text) place.position.line
    render [e] text =
      layout e place line (padding line place.position.column.toNat) ++ "\n\n" := by
  have hshown : (place.position.column + 1).toNat = place.position.column.toNat + 1 := by
    have hlt : place.position.column.toNat < 0xffffffff := hcolumn
    have hone : (1 : UInt32).toNat = 1 := rfl
    rw [UInt32.toNat_add, hone]
    omega
  have hnumber : toString (place.position.column + 1) =
      toString (place.position.column.toNat + 1) := congrArg toString hshown
  simp only [render, List.map_cons, List.map_nil, block, he, String.join, List.foldl_cons,
    List.foldl_nil, String.empty_append, hnumber]
  rfl

/-- A caret that stands no further left than behind `before` stands right there if and only if its
column is the number of characters in `before`. -/
theorem padding_behind (before : List Char) (c : Char) (more : List Char) {column : Nat}
    (h : before.length ≤ column) :
    let pad := (padding (String.ofList (before ++ c :: more)) column).toList
    before.length ≤ pad.length ∧ (pad.length = before.length ↔ column = before.length) ∧
      (pad = blanked before ↔ column = before.length) := by
  intro pad
  have hpad : pad =
      ((before ++ c :: more).map fun c => if isKept c then c else ' ').take column := by
    simp [pad, padding]
  have hlength : pad.length = min column (before.length + (more.length + 1)) := by simp [hpad]
  refine ⟨by omega, by omega, fun hsame => ?_, fun hcolumn => ?_⟩
  · have := congrArg List.length hsame
    simp only [blanked, List.length_map] at this
    omega
  · rw [hpad, hcolumn, List.map_append, List.take_left' (by simp), blanked]

/-- A lexeme with a fault starts with a character that belongs to its line. -/
theorem ne_of_fault {lex rest : Bytes} {cause : Cause} {b : UInt8}
    (hafter : encodeList (c :: after) = lex ++ rest) (hm : Munch lex rest (.fault cause))
    (hascii : Ascii.isAscii b = true) (hblank : Ascii.isBlank b = true) : c ≠ Ascii.toChar b := by
  rintro rfl
  obtain ⟨d, more, rfl, hd⟩ := hm.fault_head
  rw [Utf8.encodeList_cons, Utf8.encodeChar_toChar hascii] at hafter
  rw [← (List.cons.inj hafter).1, hblank] at hd
  cases hd

theorem FaultAt.place_eq (h : FaultAt path text e above before c) :
    e.place = some ⟨path, past (encodeList (above ++ before))⟩ := by
  obtain ⟨after, lex, rest, cause, -, -, -, rfl⟩ := h.lexeme
  rfl

theorem FaultAt.stands (h : FaultAt path text e above before c) :
    ∃ more, Lines.Stands text.toList above (before ++ c :: more) := by
  obtain ⟨after, lex, rest, cause, htext, hafter, hm, -⟩ := h.lexeme
  exact Lines.exists_stands htext h.above_ends h.before_line
    (ne_of_fault (b := Ascii.lineFeed) hafter hm rfl rfl)
    (ne_of_fault (b := Ascii.carriageReturn) hafter hm rfl rfl)

theorem FaultAt.number (h : FaultAt path text e above before c)
    (hlines : (Utf8.encode text).count Ascii.lineFeed < 0xffffffff) :
    (past (encodeList (above ++ before))).line.toNat = above.count '\n' + 1 := by
  obtain ⟨after, -, -, -, htext, -, -, -⟩ := h.lexeme
  have hcount : (encodeList (above ++ before)).count Ascii.lineFeed = above.count '\n' := by
    rw [Utf8.count_encodeList rfl, List.count_append]
    exact congrArg _ (List.count_eq_zero_of_not_mem h.before_line)
  have habove : above.count '\n' < 0xffffffff := by
    rw [Utf8.encode_eq, Utf8.count_encodeList rfl, htext, List.append_assoc,
      List.count_append] at hlines
    exact Nat.lt_of_le_of_lt (Nat.le_add_right _ _) hlines
  rw [past, hcount, Position.toNat_saturate]
  omega

theorem FaultAt.column (h : FaultAt path text e above before c) :
    (past (encodeList (above ++ before))).column.toNat =
      min (encodeList before).length 0xffffffff := by
  rw [past, Position.toNat_saturate, Position.lastLine_encodeList h.above_ends h.before_line]

/-- The line that is shown of a fault, and how many bytes of it stand before the fault. -/
theorem FaultAt.shown (h : FaultAt path text e above before c)
    (hlines : (Utf8.encode text).count Ascii.lineFeed < 0xffffffff) :
    ∃ place more, e.place = some place ∧
      sourceLine (Lines.split text) place.position.line = String.ofList (before ++ c :: more) ∧
      (place.position.column < 0xffffffff →
        place.position.column.toNat = (encodeList before).length) := by
  obtain ⟨more, hstands⟩ := h.stands
  refine ⟨_, more, h.place_eq, ?_, fun hcolumn => ?_⟩
  · rw [sourceLine, h.number hlines, Nat.add_sub_cancel, hstands.getElem?_split]
    rfl
  · have hcolumn : (past (encodeList (above ++ before))).column.toNat < 0xffffffff := hcolumn
    have hwidth := h.column
    show (past (encodeList (above ++ before))).column.toNat = _
    omega

/-- The caret of a lexical error stands under the start of its lexeme, on the line that is shown,
if and only if all that stands before on the line is ASCII. It never stands further left. -/
theorem caret_under_fault_iff (he : Lexer.FailsWith path (Utf8.encode text) e)
    (hlines : (Utf8.encode text).count Ascii.lineFeed < 0xffffffff)
    (hcolumn : ∀ place, e.place = some place → place.position.column < 0xffffffff) :
    ∃ place above before c line pad, e.place = some place ∧ FaultAt path text e above before c ∧
      render [e] text = layout e place line pad ++ "\n\n" ∧ before ++ [c] <+: line.toList ∧
      before.length ≤ pad.toList.length ∧
      (pad.toList.length = before.length ↔ ∀ c ∈ before, c.toNat < 0x80) ∧
      (pad.toList = blanked before ↔ ∀ c ∈ before, c.toNat < 0x80) := by
  obtain ⟨above, before, c, hfault⟩ := exists_faultAt he
  obtain ⟨place, more, hplace, hline, hwidth⟩ := hfault.shown hlines
  have hwidth := hwidth (hcolumn place hplace)
  have hrender := render_singleton hplace (hcolumn place hplace) text
  rw [hline, hwidth] at hrender
  have hpad := padding_behind before c more (Utf8.length_le_encodeList before)
  rw [Utf8.length_encodeList_eq_iff] at hpad
  exact ⟨place, above, before, c, _, _, hplace, hfault, hrender, by simp, hpad⟩

/-- A sign on the second line, behind a tab and a register. -/
theorem caret_under_fault_iff_tab :
    let text := "X\n\tY ="
    let place : Place := ⟨⟨"x.s"⟩, ⟨2, 3⟩⟩
    let e := (Error.ofCause (.unsupportedSymbol 0x3d)).locate place.path place.position
    ∃ above before c line, FaultAt place.path text e above before c ∧
      before ++ [c] <+: line.toList ∧
      render [e] text = layout e place line (String.ofList (blanked before)) ++ "\n\n" := by
  intro text place e
  have he : Lexer.FailsWith place.path (Utf8.encode text) e := ⟨rfl, by decide +kernel⟩
  have hcolumn : ∀ p, e.place = some p → p.position.column < 0xffffffff := by
    intro p hp
    obtain rfl : place = p := Option.some.inj hp
    decide
  obtain ⟨p, above, before, c, line, pad, hp, hfault, hrender, hline, -, -, hpad⟩ :=
    caret_under_fault_iff he (by decide) hcolumn
  obtain rfl : place = p := Option.some.inj hp
  have hascii : text.toList.all (·.toNat < 0x80) = true := by decide
  have hbefore : ∀ c ∈ before, c.toNat < 0x80 := by
    intro d hd
    obtain ⟨after, -, -, -, htext, -, -, -⟩ := hfault.lexeme
    have hmem : d ∈ text.toList := by simp [htext, hd]
    simpa using List.all_eq_true.1 hascii d hmem
  have hblanked : String.ofList (blanked before) = pad := by
    rw [← hpad.2 hbefore, String.ofList_toList]
  exact ⟨above, before, c, line, hfault, hline, by rw [hblanked]; exact hrender⟩

theorem munch_equals (rest : Bytes) : Munch [0x3d] rest (.fault (.unsupportedSymbol 0x3d)) := by
  refine .unsupportedSymbol ?_ ?_
  · unfold Grammar.IsSign
    decide
  · intro k
    cases k <;> decide

/-- The literal has three characters in four bytes, and the caret stands one too far right. -/
theorem caret_beside_fault :
    let text := "\"é\" ="
    let before := "\"é\" ".toList
    let place : Place := ⟨⟨"x.s"⟩, ⟨1, 5⟩⟩
    let e := (Error.ofCause (.unsupportedSymbol 0x3d)).locate place.path place.position
    Lexer.FailsWith place.path (Utf8.encode text) e ∧ FaultAt place.path text e [] before '=' ∧
      render [e] text = layout e place text "     " ++ "\n\n" ∧
      blanked before = "    ".toList ∧
      render [e] text ≠ layout e place text (String.ofList (blanked before)) ++ "\n\n" := by
  intro text before place e
  have hclean : Lexer.LexesTo place.path (encodeList before)
      [.ofText .literal [0xc3, 0xa9] place.path 1] := .inr ⟨by decide, by decide +kernel⟩
  refine ⟨⟨rfl, by decide +kernel⟩, ⟨.inl rfl, by decide, ⟨_, hclean⟩, [], [0x3d], [], _, ?_, ?_,
    munch_equals [], ?_⟩, ?_, ?_, ?_⟩
  all_goals decide +kernel

end Diagnostic

end Asm6502
