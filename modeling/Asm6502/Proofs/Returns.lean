import Asm6502.Diagnostic
import Asm6502.Proofs.Texts
import Asm6502.Proofs.Text.Lines

/-!
# Carriage returns before line feeds

A source whose lines end in a carriage return and a line feed is scanned like the one whose lines
end in a line feed alone (`Scan.ofBytes_withReturns`). Between two line feeds a lexeme ends before
the carriage return, which is skipped then, unless it is a comment or a string without an end: these
take the carriage return in and still mean the same (`Munch.withReturns`).
-/

namespace Asm6502

open Position (past)
open Scan (marksFrom)

/-- The bytes with a carriage return before every line feed. -/
def withReturns (bs : Bytes) : Bytes :=
  bs.flatMap fun b => if b = Ascii.lineFeed then [Ascii.carriageReturn, Ascii.lineFeed] else [b]

theorem withReturns_append (bs cs : Bytes) :
    withReturns (bs ++ cs) = withReturns bs ++ withReturns cs := List.flatMap_append

theorem withReturns_of_not_mem {bs : Bytes} (h : Ascii.lineFeed ∉ bs) : withReturns bs = bs := by
  induction bs with
  | nil => rfl
  | cons b bs ih =>
    obtain ⟨hb, hbs⟩ := List.ne_and_not_mem_of_not_mem_cons h
    rw [← List.singleton_append, withReturns_append, ih hbs]
    simp [withReturns, hb.symm]

theorem withReturns_eq_nil {bs : Bytes} : withReturns bs = [] ↔ bs = [] := by
  cases bs with
  | nil => simp [withReturns]
  | cons b bs => by_cases hb : b = Ascii.lineFeed <;> simp [withReturns, hb]

/-! ## Positions -/

/-- A carriage return moves the column only, and the line feed behind it starts another one. -/
theorem Position.past_withReturns (bs : Bytes) : past (withReturns bs) = past bs := by
  induction bs using List.reverseRecOn with
  | nil => rfl
  | append_singleton bs b ih =>
    rw [withReturns_append, past_append, ih, ← after_past]
    by_cases hb : b = Ascii.lineFeed
    · subst hb
      rfl
    · rw [withReturns_of_not_mem (by simpa using Ne.symm hb)]
      rfl

namespace Grammar

variable {source : Path} {before now lex rest body text : Bytes} {sense : Sense}
  {p : UInt8 → Bool}

/-! ## Lexemes -/

theorem Ends.withReturns (h : Ends p rest) (hp : p Ascii.carriageReturn = false) :
    Ends p (withReturns rest) := by
  cases rest with
  | nil => exact Ends.nil
  | cons b rest =>
    by_cases hb : b = Ascii.lineFeed
    · subst hb
      exact ends_cons.2 hp
    · have hone : Ascii.lineFeed ∉ [b] := by simpa using Ne.symm hb
      rw [← List.singleton_append, withReturns_append, withReturns_of_not_mem hone]
      exact ends_cons.2 (ends_cons.1 h)

theorem Unclosed.lineFeed_not_mem (h : Unclosed body) : Ascii.lineFeed ∉ body := by
  rcases h with ⟨text, h⟩ | ⟨head, text, rfl, h⟩
  · exact h.lineFeed_not_mem
  · intro hm
    rcases List.mem_append.1 hm with hm | hm
    · exact h.lineFeed_not_mem hm
    · cases List.mem_singleton.1 hm

/-- A line feed is a lexeme by itself or belongs to none. -/
theorem Munch.lineFeed (h : Munch lex rest sense) :
    lex = [Ascii.lineFeed] ∧ sense = .blank ∨ Ascii.lineFeed ∉ lex := by
  have hrun : ∀ {b : UInt8} {run : Bytes}, b ≠ Ascii.lineFeed →
      (∀ c ∈ run, Ascii.isAlphanumeric c = true) → Ascii.lineFeed ∉ b :: run := by
    intro b run hb hrun hm
    rcases List.mem_cons.1 hm with rfl | hm
    · exact hb rfl
    · cases hrun _ hm
  cases h with
  | @skip b =>
    by_cases hb : b = Ascii.lineFeed
    · exact .inl ⟨by rw [hb], rfl⟩
    · exact .inr (by simpa using Ne.symm hb)
  | comment htext _ => exact .inr (List.not_mem_cons_of_ne_of_not_mem (by decide) htext)
  | label hn => exact .inr (by simpa using ⟨hn.lineFeed_not_mem, by decide⟩)
  | @instruction k => exact .inr (isName_mnemonic k).lineFeed_not_mem
  | @operand k => exact .inr (isName_register k).lineFeed_not_mem
  | identifier hn => exact .inr hn.lineFeed_not_mem
  | decimal hb hrun' =>
    refine .inr (hrun ?_ hrun')
    rintro rfl
    cases hb
  | hexadecimal hrun' | binary hrun' => exact .inr (hrun (by decide) hrun')
  | @directive k =>
    exact .inr (hrun (by decide) fun c hc => Ascii.isAlphanumeric_of_isLetter (k.letters c hc))
  | unsupportedDirective hname =>
    exact .inr (hrun (by decide) fun c hc => Ascii.isAlphanumeric_of_isLetter (hname c hc))
  | literal h =>
    exact .inr (by simpa using ⟨by decide, h.lineFeed_not_mem, by decide⟩)
  | unterminated h =>
    exact .inr (List.not_mem_cons_of_ne_of_not_mem (by decide) h.lineFeed_not_mem)
  | @symbol k =>
    right
    cases k <;> decide
  | @unsupportedSymbol b _ hb =>
    right
    rintro hm
    obtain rfl := List.mem_singleton.1 hm
    cases hb.1
  | @invalidCharacter b _ hb =>
    right
    rintro hm
    obtain rfl := List.mem_singleton.1 hm
    cases hb

/-- A lexeme before carriage returns and line feeds. -/
theorem Munch.withReturns (h : Munch lex rest sense) : Munch lex (withReturns rest) sense ∨
    ∃ more, rest = Ascii.lineFeed :: more ∧
      Munch (lex ++ [Ascii.carriageReturn]) (Ascii.lineFeed :: withReturns more) sense := by
  rcases h.follow with hany | ⟨hrest, hline⟩
  · exact .inl (hany _ fun p hp _ hrest => hrest.withReturns hp)
  · cases rest with
    | nil => exact .inl (hline _ Ends.nil).1
    | cons b more =>
      obtain rfl : b = Ascii.lineFeed := by simpa using ends_cons.1 hrest
      exact .inr ⟨more, rfl, (hline _ (ends_cons.2 (by decide))).2⟩

/-! ## Scans -/

/-- Carriage returns before line feeds change nothing in a scan. -/
theorem scan_withReturns (source : Path) (before now : Bytes) :
    Scan.ofMarks source none (marksFrom (past (withReturns before)) (withReturns now)) =
      Scan.ofMarks source none (marksFrom (past before) now) := by
  have hskip : ∀ {b : UInt8} (before rest : Bytes), Ascii.isBlank b = true →
      Scan.ofMarks source none (marksFrom (past before) (b :: rest)) =
        Scan.ofMarks source none (marksFrom (past (before ++ [b])) rest) := fun before rest hb =>
    Munch.onto (.skip (.inr hb)) source before
  induction before, now using lexeme_induction with
  | nil before => rfl
  | munch before lex rest sense hm ih =>
    rw [hm.onto, ← ih]
    rcases hm.lineFeed with ⟨rfl, rfl⟩ | hlex
    · -- two blanks stand for one
      have hnow : withReturns ([Ascii.lineFeed] ++ rest) =
          Ascii.carriageReturn :: Ascii.lineFeed :: withReturns rest := rfl
      have hbefore : withReturns (before ++ [Ascii.lineFeed]) =
          withReturns before ++ [Ascii.carriageReturn] ++ [Ascii.lineFeed] := by
        rw [withReturns_append, List.append_assoc]
        rfl
      rw [hnow, hbefore, hskip _ _ rfl, hskip _ _ rfl]
      rfl
    · rw [withReturns_append lex, withReturns_append before, withReturns_of_not_mem hlex,
        ← Position.past_withReturns before]
      rcases hm.withReturns with hm' | ⟨more, rfl, hm'⟩
      · rw [hm'.onto]
      · -- the lexeme has taken in the blank that would come next
        have hrest : withReturns (Ascii.lineFeed :: more) =
            Ascii.carriageReturn :: Ascii.lineFeed :: withReturns more := rfl
        rw [hrest, List.append_cons lex, hm'.onto, ← List.append_assoc, ← hskip _ _ rfl]

end Grammar

theorem Scan.ofBytes_withReturns (path : Path) (bs : Bytes) :
    ofBytes path (withReturns bs) = ofBytes path bs :=
  Grammar.scan_withReturns path [] bs

/-! ## Texts -/

theorem Utf8.encodeList_withReturns (cs : List Char) :
    encodeList (Lines.withReturns cs) = withReturns (encodeList cs) := by
  induction cs with
  | nil => rfl
  | cons c cs ih =>
    have hcons : Lines.withReturns (c :: cs) = Lines.withReturns [c] ++ Lines.withReturns cs :=
      @List.flatMap_append _ _ [c] cs _
    rw [hcons, encodeList_append, ih, encodeList_cons, withReturns_append]
    congr 1
    by_cases hc : c = '\n'
    · subst hc
      rfl
    · have hfeed : Ascii.lineFeed ∉ encodeList [c] := by
        rw [mem_encodeList rfl]
        exact fun h => hc (List.mem_singleton.1 h).symm
      have hone : encodeList [c] = String.utf8EncodeChar c := by simp [encodeList]
      rw [← hone, withReturns_of_not_mem hfeed]
      simp [Lines.withReturns, hc]

/-- The same errors look the same over both texts. -/
theorem Diagnostic.render_withReturns {text : String} (h : '\r' ∉ text.toList)
    (errors : List Error) :
    render errors (String.ofList (Lines.withReturns text.toList)) = render errors text := by
  rw [render, render, Lines.split_withReturns h]

namespace Lexer

variable {ρ σ : Type} [Reader ρ] [Reader σ] {r : ρ} {q : σ} {path : Path} {bs : Bytes}

/-- Two lexers whose readers hold bytes with the same scan. -/
theorem ofReader_eq_of_scan_eq {cs : Bytes} (hr : Reader.Holds r path bs)
    (hq : Reader.Holds q path cs) (hempty : cs = [] ↔ bs = [])
    (hscan : Scan.ofBytes path cs = Scan.ofBytes path bs) :
    (ofReader q).1.map (·.tokens.toList) = (ofReader r).1.map (·.tokens.toList) ∧
      (ofReader q).2 = (ofReader r).2 := by
  by_cases hne : bs = []
  · obtain rfl := hempty.2 hne
    subst hne
    rw [ofReader_of_empty hr, ofReader_of_empty hq]
    exact ⟨rfl, rfl⟩
  · have hne' : cs ≠ [] := fun h => hne (hempty.1 h)
    refine ⟨by rw [ofReader_outcome hr hne, ofReader_outcome hq hne', hscan], ?_⟩
    cases he : (Scan.ofBytes path bs).error? with
    | some e => rw [ofReader_of_error hr hne he, ofReader_of_error hq hne' (hscan ▸ he), hscan]
    | none =>
      obtain ⟨s, -, -, hl⟩ := ofReader_of_no_error hr hne he
      obtain ⟨s', -, -, hl'⟩ := ofReader_of_no_error hq hne' (hscan ▸ he)
      rw [hl, hl', hscan]

/-- A source with carriage returns before its line feeds comes to the same tokens or fails with the
same error, and reports the same. Over a text without other carriage returns the error also looks
the same. -/
theorem ofReader_withReturns (hr : Reader.Holds r path bs)
    (hq : Reader.Holds q path (withReturns bs)) :
    (ofReader q).1.map (·.tokens.toList) = (ofReader r).1.map (·.tokens.toList) ∧
      (ofReader q).2 = (ofReader r).2 ∧
      ∀ text, bs = Utf8.encode text → Ascii.carriageReturn ∉ bs →
        let text' := String.ofList (Lines.withReturns text.toList)
        withReturns bs = Utf8.encode text' ∧
          ∀ errors, Diagnostic.render errors text' = Diagnostic.render errors text := by
  obtain ⟨houtcome, hreport⟩ :=
    ofReader_eq_of_scan_eq hr hq withReturns_eq_nil (Scan.ofBytes_withReturns path bs)
  refine ⟨houtcome, hreport, ?_⟩
  rintro text rfl hreturn
  rw [Utf8.encode_eq, Utf8.mem_encodeList rfl] at hreturn
  refine ⟨?_, Diagnostic.render_withReturns hreturn⟩
  rw [Utf8.encode_eq, Utf8.encode_eq, String.toList_ofList, Utf8.encodeList_withReturns]

/-- A comment, and a string that is cut behind a backslash. -/
theorem ofReader_withReturns_string :
    let text := "X ; x\n\"a\\\nY"
    let text' := "X ; x\r\n\"a\\\r\nY"
    let e := (Error.ofCause .unterminatedLiteral).locate ⟨"x.s"⟩ ⟨2, 0⟩
    let outcome (text : String) :=
      (ofReader (MemoryReader.ofBytes (Utf8.encode text) ⟨"x.s"⟩)).1.map (·.tokens.toList)
    outcome text' = outcome text ∧ outcome text = .error e ∧
      Diagnostic.render [e] text' = Diagnostic.render [e] text := by
  intro text text' e outcome
  have hbytes : withReturns (Utf8.encode text) = Utf8.encode text' := by decide
  have htext : String.ofList (Lines.withReturns text.toList) = text' := by decide
  have he : outcome text = .error e := by decide +kernel
  have hr := MemoryReader.holds (Utf8.encode text) ⟨"x.s"⟩
  have hq := MemoryReader.holds (withReturns (Utf8.encode text)) ⟨"x.s"⟩
  obtain ⟨houtcome, -, hrender⟩ := ofReader_withReturns hr hq
  have hshown := (hrender text rfl (by decide)).2 [e]
  rw [hbytes] at houtcome
  rw [htext] at hshown
  exact ⟨houtcome, he, hshown⟩

end Lexer

end Asm6502
