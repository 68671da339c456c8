import Asm6502.Proofs.Delivery
import Asm6502.Proofs.Lexemes

/-!
# The scanner accepts its grammar

Lexeme by lexeme the scanner does what the grammar says (`Grammar.Munch.onto`), so that the scan of
some bytes is the one that the grammar derives from them (`Grammar.derives_iff`). Every lexer, over
whatever reader holds the bytes, comes to what that scan comes to.
-/

namespace Asm6502

open Scan (marksFrom)
open Position (past)

/-- What a lexeme at `pos` adds in front of the scan of what follows it. -/
def Sense.onto (source : Path) (pos : Position) (scan : Scan) : Sense → Scan
  | blank => scan
  | item i => scan.cons (i.token source pos.line)
  | fault cause => ⟨[], some ((Error.ofCause cause).locate source pos)⟩

namespace Scan

/-- The first lexeme of some marks decides the scan, unless a failure to read cuts it off. -/
theorem ofMarks_cons (source : Path) (fault? : Option Error) (m : Mark) (marks : List Mark) :
    fault? ≠ none ∧ ofMarks source fault? (m :: marks) = ⟨[], fault?⟩ ∨
      ofMarks source fault? (m :: marks) = match (Lexeme.read source m marks).meaning with
        | .nothing => ofMarks source fault? (Lexeme.read source m marks).rest
        | .token t => (ofMarks source fault? (Lexeme.read source m marks).rest).cons t
        | .fault cause => ⟨[], some ((Error.ofCause cause).locate source m.pos)⟩ := by
  by_cases hcut : ∃ e, (Lexeme.read source m marks).atEnd = true ∧ fault? = some e
  · obtain ⟨e, hend, rfl⟩ := hcut
    exact .inl ⟨by simp, ofMarks.eq_2 source m marks e hend⟩
  · exact .inr (ofMarks.eq_3 source m marks fault? fun e hend he => hcut ⟨e, hend, he⟩)

end Scan

namespace Grammar

variable {source : Path} {before now lex rest : Bytes} {sense : Sense} {scan : Scan}

/-- One lexeme of a scan, whether or not all of the source can be read. -/
theorem Munch.onto_or_cut (h : Munch lex rest sense) (source : Path) (fault? : Option Error)
    (before : Bytes) :
    fault? ≠ none ∧
      Scan.ofMarks source fault? (marksFrom (past before) (lex ++ rest)) = ⟨[], fault?⟩ ∨
    Scan.ofMarks source fault? (marksFrom (past before) (lex ++ rest)) = sense.onto source
      (past before) (Scan.ofMarks source fault? (marksFrom (past (before ++ lex)) rest)) := by
  obtain ⟨m, marks, hm, hpos, hmeaning, hrest⟩ := h.reads source (past before)
  rw [hm, Position.past_append]
  refine (Scan.ofMarks_cons source fault? m marks).imp_right fun hstep => ?_
  rw [hstep, hmeaning]
  cases sense with
  | blank => rw [← hrest (by simp)]; rfl
  | item i => rw [← hrest (by simp)]; rfl
  | fault cause => rw [hpos]; rfl

theorem Munch.onto (h : Munch lex rest sense) (source : Path) (before : Bytes) :
    Scan.ofMarks source none (marksFrom (past before) (lex ++ rest)) = sense.onto source
      (past before) (Scan.ofMarks source none (marksFrom (past (before ++ lex)) rest)) := by
  rcases h.onto_or_cut source none before with ⟨hn, -⟩ | h
  · exact absurd rfl hn
  · exact h

theorem Derives.scan_eq (h : Derives source before now scan) :
    Scan.ofMarks source none (marksFrom (past before) now) = scan := by
  induction h with
  | done => simp [marksFrom, Scan.ofMarks]
  | blank hm _ ih => rw [hm.onto, ih]; rfl
  | item hm _ ih => rw [hm.onto, ih]; rfl
  | fault hm => rw [hm.onto]; rfl

/-- The grammar derives something from any bytes. -/
theorem Derives.total (source : Path) (before now : Bytes) :
    ∃ scan, Derives source before now scan := by
  induction before, now using lexeme_induction with
  | nil before => exact ⟨_, .done⟩
  | munch before lex rest sense hm ih =>
    obtain ⟨scan, h⟩ := ih
    cases sense with
    | blank => exact ⟨_, .blank hm h⟩
    | item i => exact ⟨_, .item hm h⟩
    | fault cause => exact ⟨_, .fault hm⟩

/-- A scan of bytes is what the grammar derives from them, and nothing else is. -/
theorem derives_iff : Derives source before now scan ↔
    Scan.ofMarks source none (marksFrom (past before) now) = scan := by
  constructor
  · exact Derives.scan_eq
  · rintro rfl
    obtain ⟨scan, h⟩ := Derives.total source before now
    rwa [h.scan_eq]

end Grammar

namespace Lexer

variable {ρ : Type} [Reader ρ] {r : ρ} {path : Path} {bs : Bytes}

/-- A lexer over a reader of some bytes comes to its tokens or its error exactly as the grammar
derives them from the bytes. -/
theorem ofReader_iff_derives (hr : Reader.Holds r path bs) (hne : bs ≠ [])
    (o : Except Error (List Token)) :
    (ofReader r).1.map (·.tokens.toList) = o ↔
      ∃ scan, Grammar.Derives path [] bs scan ∧ scan.outcome = o := by
  rw [ofReader_outcome hr hne]
  constructor
  · intro h
    exact ⟨_, Grammar.derives_iff.2 rfl, h⟩
  · rintro ⟨scan, hd, rfl⟩
    rw [← Grammar.derives_iff.1 hd]
    rfl

/-- A register on the second line. -/
theorem ofReader_register_below :
    (ofReader (MemoryReader.ofBytes [Ascii.lineFeed, 0x58] ⟨"x.s"⟩)).1.map (·.tokens.toList) =
      .ok [.ofKeyword Register.indexX ⟨"x.s"⟩ 2, .finish] := by
  have hx : Grammar.Munch (Keyword.spelling Register.indexX) [] (.item (.operand .indexX)) :=
    .operand Grammar.Ends.nil Grammar.Ends.nil
  refine (ofReader_iff_derives (MemoryReader.holds _ _) (by simp) _).2
    ⟨_, .blank (.skip (.inr rfl)) (.item hx .done), ?_⟩
  rfl

end Lexer

end Asm6502
