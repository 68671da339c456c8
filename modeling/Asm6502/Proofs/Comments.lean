import Asm6502.Proofs.Returns

/-!
# Comments have no influence

A semicolon ends every run and starts no part of any lexeme, so a comment can be put behind
whatever comes to tokens without changing them (`Grammar.Derives.comment`). It ends before the line
feed, and below that the source goes on at the same line as without the comment. So two sources that
differ only in a comment at the end of a line come to the same (`Lexer.comment_without_influence`).
-/

namespace Asm6502

namespace Grammar

variable {source : Path} {before now lex rest text : Bytes} {sense : Sense} {ts : List Token}
  {s : Scan} {p : UInt8 → Bool}

/-! ## Behind lexemes -/

/-- A run that ends before `rest` ends there too if a semicolon follows. -/
theorem Ends.comment (h : Ends p rest) (hp : p Ascii.semicolon = false) (text : Bytes) :
    Ends p (rest ++ Ascii.semicolon :: text) := by
  cases rest with
  | nil => exact ends_cons.2 hp
  | cons b rest => exact ends_cons.2 (ends_cons.1 h)

/-- A lexeme without a fault stays one if a comment follows, unless it is itself a comment up to the
end: that one goes on over the other. -/
theorem Munch.comment_behind (h : Munch lex rest sense) (hsense : ∀ cause, sense ≠ .fault cause)
    (htext : Ascii.lineFeed ∉ text) :
    Munch lex (rest ++ Ascii.semicolon :: text) sense ∨
      rest = [] ∧ sense = .blank ∧ Munch (lex ++ Ascii.semicolon :: text) [] .blank := by
  cases h with
  | @comment text' _ htext' hrest =>
    cases rest with
    | nil =>
      refine .inr ⟨rfl, rfl, .comment ?_ Ends.nil⟩
      simpa using ⟨htext', by decide, htext⟩
    | cons b rest =>
      rw [ends_cons] at hrest
      exact .inl (.comment htext' (ends_cons.2 hrest))
  | skip hb => exact .inl (.skip hb)
  | label hn => exact .inl (.label hn)
  | instruction hrest hcolon =>
    exact .inl (.instruction (hrest.comment rfl text) (hcolon.comment rfl text))
  | operand hrest hcolon =>
    exact .inl (.operand (hrest.comment rfl text) (hcolon.comment rfl text))
  | identifier hn hm hr hrest hcolon =>
    exact .inl (.identifier hn hm hr (hrest.comment rfl text) (hcolon.comment rfl text))
  | decimal hb hrun hrest h => exact .inl (.decimal hb hrun (hrest.comment rfl text) h)
  | hexadecimal hrun hrest h => exact .inl (.hexadecimal hrun (hrest.comment rfl text) h)
  | binary hrun hrest h => exact .inl (.binary hrun (hrest.comment rfl text) h)
  | directive hrest => exact .inl (.directive (hrest.comment rfl text))
  | literal h => exact .inl (.literal h)
  | symbol => exact .inl .symbol
  | unsupportedDirective | unterminated | unsupportedSymbol | invalidCharacter =>
    exact absurd rfl (hsense _)

theorem Derives.of_nil (h : Derives source before [] s) : s = ⟨[], none⟩ := by
  rw [← h.scan_eq]
  simp [Scan.marksFrom, Scan.ofMarks]

/-- Bytes that come to tokens come to the same with a comment behind them. -/
theorem Derives.comment (h : Derives source before now ⟨ts, none⟩)
    (htext : Ascii.lineFeed ∉ text) :
    Derives source before (now ++ Ascii.semicolon :: text) ⟨ts, none⟩ := by
  generalize hs : (⟨ts, none⟩ : Scan) = s at h ⊢
  have hcomment : Munch (Ascii.semicolon :: text) [] .blank := .comment htext Ends.nil
  induction h generalizing ts with
  | @done before =>
    have hderives : Derives source before (Ascii.semicolon :: text ++ []) ⟨[], none⟩ :=
      .blank hcomment .done
    rwa [List.append_nil] at hderives
  | @blank before lex rest s hm hd ih =>
    rw [List.append_assoc]
    rcases hm.comment_behind (by simp) htext with hm' | ⟨rfl, -, hm'⟩
    · exact .blank hm' (ih hs)
    · -- the last lexeme takes the comment in
      have hall : Derives source before (lex ++ Ascii.semicolon :: text ++ []) ⟨[], none⟩ :=
        .blank hm' .done
      rw [hd.of_nil]
      rwa [List.append_nil] at hall
  | @item before lex rest i s hm hd ih =>
    obtain ⟨ts', e⟩ := s
    obtain ⟨-, rfl⟩ := Scan.mk.inj hs
    rw [List.append_assoc]
    rcases hm.comment_behind (by simp) htext with hm' | ⟨-, hblank, -⟩
    · exact .item hm' (ih rfl)
    · cases hblank
  | fault => cases (Scan.mk.inj hs).2

/-- A comment at the end of a line changes nothing behind bytes that come to tokens. -/
theorem Derives.comment_in_line {tail : Bytes} (h : Derives source [] now ⟨ts, none⟩)
    (htext : Ascii.lineFeed ∉ text) (htail : tail = [] ∨ ∃ below, tail = Ascii.lineFeed :: below) :
    ∃ s, Derives source [] (now ++ tail) s ∧
      Derives source [] (now ++ Ascii.semicolon :: text ++ tail) s := by
  rcases htail with rfl | ⟨below, rfl⟩
  · rw [List.append_nil, List.append_nil]
    exact ⟨_, h, h.comment htext⟩
  · obtain ⟨s, hs⟩ := Derives.total source [] below
    have hcount : (now ++ Ascii.semicolon :: text).count Ascii.lineFeed =
        now.count Ascii.lineFeed := by
      have hzero : (Ascii.semicolon :: text).count Ascii.lineFeed = 0 :=
        List.count_eq_zero.2 (List.not_mem_cons_of_ne_of_not_mem (by decide) htext)
      rw [List.count_append, hzero, Nat.add_zero]
    have hcomment := (h.comment htext).join (hs.lower (now ++ Ascii.semicolon :: text))
    rw [hcount] at hcomment
    exact ⟨_, h.join (hs.lower now), hcomment⟩

end Grammar

namespace Lexer

variable {ρ σ : Type} [Reader ρ] [Reader σ] {r : ρ} {q : σ} {path : Path}
  {head text tail : Bytes} {ts : List Token}

/-- Behind bytes that come to tokens, or none, a comment up to the next line feed or the end changes
neither the tokens of the whole source, nor its error, nor what is reported. -/
theorem comment_without_influence (hhead : LexesTo path head ts) (htext : Ascii.lineFeed ∉ text)
    (htail : tail = [] ∨ ∃ below, tail = Ascii.lineFeed :: below) (hne : head ++ tail ≠ [])
    (hr : Reader.Holds r path (head ++ tail))
    (hq : Reader.Holds q path (head ++ Ascii.semicolon :: text ++ tail)) :
    (ofReader q).1.map (·.tokens.toList) = (ofReader r).1.map (·.tokens.toList) ∧
      (ofReader q).2 = (ofReader r).2 := by
  obtain ⟨s, hplain, hcomment⟩ := (lexesTo_iff.1 hhead).comment_in_line htext htail
  have hscan : Scan.ofBytes path (head ++ Ascii.semicolon :: text ++ tail) =
      Scan.ofBytes path (head ++ tail) := hcomment.scan_eq.trans hplain.scan_eq.symm
  exact ofReader_eq_of_scan_eq hr hq (by simp [hne]) hscan

/-- A quote and a byte above ASCII in a comment right behind a register, over a faulty line. -/
theorem comment_without_influence_quote :
    let head : Bytes := [0x58]
    let text : Bytes := [Ascii.quote, 0x80, Ascii.semicolon]
    let tail : Bytes := [Ascii.lineFeed, Ascii.space, 0x3d]
    let outcome (bs : Bytes) :=
      (ofReader (MemoryReader.ofBytes bs ⟨"x.s"⟩)).1.map (·.tokens.toList)
    LexesTo ⟨"x.s"⟩ head [.ofKeyword Register.indexX ⟨"x.s"⟩ 1] ∧
      outcome (head ++ Ascii.semicolon :: text ++ tail) = outcome (head ++ tail) ∧
      outcome (head ++ tail) =
        .error ((Error.ofCause (.unsupportedSymbol 0x3d)).locate ⟨"x.s"⟩ ⟨2, 1⟩) := by
  intro head text tail outcome
  have hhead : LexesTo ⟨"x.s"⟩ head [.ofKeyword Register.indexX ⟨"x.s"⟩ 1] :=
    .inr ⟨by simp [head], by decide +kernel⟩
  have htext : Ascii.lineFeed ∉ text := by decide
  have hsame := comment_without_influence hhead htext (.inr ⟨_, rfl⟩) (by simp [head])
    (MemoryReader.holds (head ++ tail) _) (MemoryReader.holds _ _)
  exact ⟨hhead, hsame.1, by decide +kernel⟩

end Lexer

end Asm6502
