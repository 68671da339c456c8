import Asm6502.Proofs.Classes
import Asm6502.Proofs.Numerals

/-!
# Lexemes and the scanner

Reading a lexeme from marks against the rules of the grammar, which speak of bytes only.

- What a rule allows is what the scanner reads, and the scanner goes on behind it (`Munch.reads`).
- Whatever bytes come, some rule allows a first lexeme (`Munch.total`), so that facts about sources
  can be shown lexeme by lexeme (`lexeme_induction`).
-/

namespace Asm6502

open Scan (marksFrom)

/-- What a lexeme on a line comes to for the scanner. -/
def Sense.meaning (source : Path) (line : UInt32) : Sense → Meaning
  | blank => .nothing
  | item i => .token (i.token source line)
  | fault cause => .fault cause

namespace Grammar

open Keyword (spelling)

variable {p : UInt8 → Bool} {source : Path} {pos : Position} {b : UInt8}
  {lex more rest name run : Bytes} {sense : Sense}

/-! ## Runs -/

theorem Ends.nil : Ends p [] := fun _ h => by cases h

theorem ends_cons : Ends p (b :: rest) ↔ p b = false := by simp [Ends]

theorem ends_dropWhile (p : UInt8 → Bool) (bs : Bytes) : Ends p (bs.dropWhile p) := by
  intro b hb
  have h := List.head?_dropWhile_not p bs
  rw [hb] at h
  simpa using h

theorem run_marks (hrun : ∀ c ∈ run, p c = true) (hrest : Ends p rest) :
    Lexeme.run p (marksFrom pos (run ++ rest)) = run := by
  induction run generalizing pos with
  | nil =>
    cases rest with
    | nil => rfl
    | cons b rest => simp [Lexeme.run, marksFrom, ends_cons.1 hrest]
  | cons c run ih =>
    obtain ⟨hc, hrun⟩ := List.forall_mem_cons.1 hrun
    have h : Lexeme.run p (marksFrom (pos.after c) (run ++ rest)) = run := ih hrun
    simp only [Lexeme.run] at h
    simp [Lexeme.run, marksFrom, hc, h]

theorem afterRun_marks (hrun : ∀ c ∈ run, p c = true) (hrest : Ends p rest) :
    Lexeme.afterRun p (marksFrom pos (run ++ rest)) = marksFrom (pos.walk run) rest := by
  induction run generalizing pos with
  | nil =>
    cases rest with
    | nil => rfl
    | cons b rest => simp [Lexeme.afterRun, marksFrom, ends_cons.1 hrest, Position.walk]
  | cons c run ih =>
    obtain ⟨hc, hrun⟩ := List.forall_mem_cons.1 hrun
    have h : Lexeme.afterRun p (marksFrom (pos.after c) (run ++ rest)) =
        marksFrom ((pos.after c).walk run) rest := ih hrun
    simp only [Lexeme.afterRun] at h
    simp [Lexeme.afterRun, marksFrom, hc, h, Position.walk_cons]

/-! ## What the scanner reads -/

/-- The scanner at `pos` takes `lex` in front of `rest` for `sense`, and after anything but a fault
it goes on with `rest`. -/
def Reads (source : Path) (pos : Position) (lex rest : Bytes) (sense : Sense) : Prop :=
  ∃ m marks, marksFrom pos (lex ++ rest) = m :: marks ∧ m.pos = pos ∧
    (Lexeme.read source m marks).meaning = sense.meaning source pos.line ∧
    ((∀ cause, sense ≠ .fault cause) →
      (Lexeme.read source m marks).rest = marksFrom (pos.walk lex) rest)

theorem Reads.of_complete
    (h : Lexeme.read source ⟨b, pos⟩ (marksFrom (pos.after b) (more ++ rest)) =
      Lexeme.complete (sense.meaning source pos.line) (marksFrom (pos.walk (b :: more)) rest)) :
    Reads source pos (b :: more) rest sense :=
  ⟨⟨b, pos⟩, marksFrom (pos.after b) (more ++ rest), rfl, rfl, by rw [h]; rfl,
    fun _ => by rw [h]; rfl⟩

theorem Reads.of_upTo
    (h : Lexeme.read source ⟨b, pos⟩ (marksFrom (pos.after b) (more ++ rest)) =
      Lexeme.upTo (sense.meaning source pos.line) (marksFrom (pos.walk (b :: more)) rest)) :
    Reads source pos (b :: more) rest sense :=
  ⟨⟨b, pos⟩, marksFrom (pos.after b) (more ++ rest), rfl, rfl, by rw [h]; rfl,
    fun _ => by rw [h]; rfl⟩

theorem Reads.of_fault {cause : Cause}
    (h : (Lexeme.read source ⟨b, pos⟩ (marksFrom (pos.after b) (more ++ rest))).meaning =
      .fault cause) : Reads source pos (b :: more) rest (.fault cause) :=
  ⟨⟨b, pos⟩, marksFrom (pos.after b) (more ++ rest), rfl, rfl, h,
    fun hn => absurd rfl (hn cause)⟩

/-! ## Words -/

theorem isName_of_letters (hne : name ≠ []) (h : ∀ b ∈ name, Ascii.isLetter b = true) :
    IsName name := by
  obtain ⟨b, name, rfl⟩ := List.exists_cons_of_ne_nil hne
  obtain ⟨hb, hname⟩ := List.forall_mem_cons.1 h
  exact ⟨.inl hb, fun c hc => Ascii.isWordByte_of_isLetter (hname c hc)⟩

theorem read_word {marks : List Mark} (hb : Ascii.isLetter b = true ∨ b = Ascii.underscore) :
    Lexeme.read source ⟨b, pos⟩ marks = Lexeme.word source ⟨b, pos⟩ marks := by
  rcases hb with hb | rfl
  · simp [Lexeme.read, ByteClass.of_eq_letter.2 hb]
  · have hclass : ByteClass.of Ascii.underscore = .symbol := by decide
    simp only [Lexeme.read, hclass]
    rfl

theorem Reads.word {i : Item} (hn : IsName name) (hrest : Ends Ascii.isWordByte rest)
    (hcolon : Ends (· == Ascii.colon) rest)
    (hi : Lexeme.wordToken source name pos.line = i.token source pos.line) :
    Reads source pos name rest (.item i) := by
  cases name with
  | nil => exact hn.elim
  | cons b more =>
    apply Reads.of_upTo
    rw [read_word hn.1, Lexeme.word, run_marks hn.2 hrest, afterRun_marks hn.2 hrest]
    cases rest with
    | nil => simp only [marksFrom, hi, Sense.meaning]
    | cons c rest =>
      have hc : c ≠ Ascii.colon := by simpa using ends_cons.1 hcolon
      simp only [marksFrom, if_neg hc, hi, Sense.meaning]
      rfl

theorem Reads.label (hn : IsName name) :
    Reads source pos (name ++ [Ascii.colon]) rest (.item (.label name)) := by
  cases name with
  | nil => exact hn.elim
  | cons b more =>
    have hends : Ends Ascii.isWordByte (Ascii.colon :: rest) := ends_cons.2 (by decide)
    show Reads source pos (b :: (more ++ [Ascii.colon])) rest _
    apply Reads.of_complete
    rw [read_word hn.1, Lexeme.word, List.append_assoc, List.singleton_append,
      run_marks hn.2 hends, afterRun_marks hn.2 hends, Position.walk_cons, Position.walk_append]
    rfl

theorem wordToken_instruction (k : Mnemonic) (line : UInt32) :
    Lexeme.wordToken source (spelling k) line = (Item.instruction k).token source line := by
  simp [Lexeme.wordToken, Keyword.lookup?_spelling, Item.token]

theorem wordToken_operand (k : Register) (line : UInt32) :
    Lexeme.wordToken source (spelling k) line = (Item.operand k).token source line := by
  have hm : (Keyword.lookup? (spelling k) : Option Mnemonic) = none :=
    Keyword.lookup?_eq_none.2 fun j h => j.spelling_ne_register k h.symm
  simp [Lexeme.wordToken, hm, Keyword.lookup?_spelling, Item.token]

theorem wordToken_identifier (hm : ∀ k : Mnemonic, name ≠ spelling k)
    (hr : ∀ k : Register, name ≠ spelling k) (line : UInt32) :
    Lexeme.wordToken source name line = (Item.identifier name).token source line := by
  simp [Lexeme.wordToken, Keyword.lookup?_eq_none.2 hm, Keyword.lookup?_eq_none.2 hr, Item.token]

theorem isName_mnemonic (k : Mnemonic) : IsName (spelling k) := by
  have hne : spelling k ≠ [] := List.ne_nil_of_length_pos (by rw [k.letters.1]; decide)
  exact isName_of_letters hne k.letters.2

theorem isName_register (k : Register) : IsName (spelling k) := by
  obtain ⟨b, hk, hb⟩ := k.letter
  rw [hk]
  exact isName_of_letters (by simp) (by simpa using hb)

/-! ## Scalars and directives -/

theorem scalarMeaning_numeral {radix : Nat} {sign : String} {line : UInt32} (hr : 0 < radix)
    (hrun : ∀ c ∈ run, Ascii.isAlphanumeric c = true) (h : Numeral radix sign run sense) :
    Lexeme.scalarMeaning source radix sign run line = sense.meaning source line := by
  have htext : Utf8.decodeLossy run = Ascii.text run :=
    Utf8.decodeLossy_ascii fun c hc => Ascii.isAscii_of_isAlphanumeric (hrun c hc)
  have hread := h.read hr
  unfold Lexeme.scalarMeaning
  split at hread
  · rename_i v hv
    rw [hv, hread]
    rfl
  · rename_i hv
    rw [hv, hread, htext]
    rfl
  · rename_i hv
    rw [hv, hread, htext]
    rfl

theorem Reads.decimal (hb : Ascii.isDigit b = true)
    (hrun : ∀ c ∈ run, Ascii.isAlphanumeric c = true) (hrest : Ends Ascii.isAlphanumeric rest)
    (h : Numeral 10 "" (b :: run) sense) :
    Reads source pos (b :: run) rest sense := by
  have hall : ∀ c ∈ b :: run, Ascii.isAlphanumeric c = true :=
    List.forall_mem_cons.2 ⟨by simp [Ascii.isAlphanumeric, hb], hrun⟩
  apply Reads.of_upTo
  rw [← scalarMeaning_numeral (by decide) hall h, Position.walk_cons, ← afterRun_marks hrun hrest]
  simp [Lexeme.read, ByteClass.of_eq_digit.2 hb, Lexeme.decimal, run_marks hrun hrest]

theorem Reads.signed {radix : Nat} {sign : String} (hr : 0 < radix)
    (hread : ∀ marks, Lexeme.read source ⟨b, pos⟩ marks = Lexeme.signed source ⟨b, pos⟩ marks radix)
    (hsign : (Ascii.toChar b).toString = sign) (hrun : ∀ c ∈ run, Ascii.isAlphanumeric c = true)
    (hrest : Ends Ascii.isAlphanumeric rest) (h : Numeral radix sign run sense) :
    Reads source pos (b :: run) rest sense := by
  apply Reads.of_upTo
  rw [← scalarMeaning_numeral hr hrun h, Position.walk_cons, ← afterRun_marks hrun hrest, hread]
  simp only [Lexeme.signed, run_marks hrun hrest, hsign]

theorem Reads.dotted (hname : ∀ c ∈ name, Ascii.isLetter c = true)
    (hrest : Ends Ascii.isLetter rest)
    (h : Lexeme.directiveMeaning source name pos.line = sense.meaning source pos.line) :
    Reads source pos (Ascii.dot :: name) rest sense := by
  have hread : Lexeme.read source ⟨Ascii.dot, pos⟩ = Lexeme.directive source ⟨Ascii.dot, pos⟩ := rfl
  apply Reads.of_upTo
  rw [hread, Lexeme.directive, run_marks hname hrest, afterRun_marks hname hrest, h]
  rfl

theorem Reads.directive {k : Directive} (hrest : Ends Ascii.isLetter rest) :
    Reads source pos (Ascii.dot :: spelling k) rest (.item (.directive k)) := by
  refine Reads.dotted k.letters hrest ?_
  simp [Lexeme.directiveMeaning, Keyword.lookup?_spelling, Sense.meaning, Item.token]

theorem Reads.unsupportedDirective (hname : ∀ c ∈ name, Ascii.isLetter c = true)
    (hrest : Ends Ascii.isLetter rest) (hk : ∀ k : Directive, name ≠ spelling k) :
    Reads source pos (Ascii.dot :: name) rest
      (.fault (.unsupportedDirective (Ascii.text name))) := by
  have htext : Utf8.decodeLossy name = Ascii.text name :=
    Utf8.decodeLossy_ascii fun c hc => Ascii.isAscii_of_isLetter (hname c hc)
  refine Reads.dotted hname hrest ?_
  simp [Lexeme.directiveMeaning, Keyword.lookup?_eq_none.2 hk, Sense.meaning, htext]

/-! ## Strings -/

/-- The scanner goes over quoted text byte by byte, and what comes after decides how it ends. -/
theorem closing_quoted {body text : Bytes} (h : Quoted body text) :
    Lexeme.closing false (marksFrom pos (body ++ rest)) =
      text.foldr Lexeme.Closing.cons (Lexeme.closing false (marksFrom (pos.walk body) rest)) := by
  induction h generalizing pos with
  | nil => rfl
  | @plain b body text hq hs hl _ ih =>
    have hcons : marksFrom pos (b :: body ++ rest) =
        ⟨b, pos⟩ :: marksFrom (pos.after b) (body ++ rest) := rfl
    rw [hcons, Lexeme.closing, if_neg hs, if_neg hq, if_neg hl, ih, Position.walk_cons]
    rfl
  | @escaped b body text hl _ ih =>
    have hcons : marksFrom pos (Ascii.backslash :: b :: body ++ rest) = ⟨Ascii.backslash, pos⟩ ::
        ⟨b, pos.after Ascii.backslash⟩ ::
          marksFrom ((pos.after Ascii.backslash).after b) (body ++ rest) := rfl
    have hnext : ∀ p marks, Lexeme.closing true (⟨b, p⟩ :: marks) =
        (Lexeme.closing false marks).cons b := by
      intro p marks
      by_cases hs : b = Ascii.backslash
      · simp [Lexeme.closing, hs]
      · by_cases hq : b = Ascii.quote <;> simp [Lexeme.closing, hs, hq, hl]
    rw [hcons, Lexeme.closing, if_pos rfl, if_neg Bool.false_ne_true, hnext, ih,
      Position.walk_cons, Position.walk_cons]
    rfl

theorem foldr_closed (text : Bytes) (marks : List Mark) :
    text.foldr Lexeme.Closing.cons (.closed [] marks) = .closed text marks := by
  induction text with
  | nil => rfl
  | cons b text ih => rw [List.foldr_cons, ih]; rfl

/-- A string that is not closed before something that ends it. -/
theorem foldr_ne_closed {c : Lexeme.Closing} (text : Bytes)
    (h : ∀ tail marks, c ≠ .closed tail marks) :
    ∀ tail marks, text.foldr Lexeme.Closing.cons c ≠ .closed tail marks := by
  induction text with
  | nil => exact h
  | cons b text ih =>
    intro tail marks hc
    obtain ⟨tail, -, hc⟩ := Lexeme.Closing.cons_eq_closed.1 hc
    exact ih tail marks hc

/-- Right behind text that has not been closed, a line feed or the end closes nothing. -/
theorem closing_cut (escaped : Bool) (hrest : Ends (· != Ascii.lineFeed) rest) :
    ∀ tail marks, Lexeme.closing escaped (marksFrom pos rest) ≠ .closed tail marks := by
  intro tail marks
  cases rest with
  | nil => simp [marksFrom, Lexeme.closing]
  | cons b rest =>
    obtain rfl : b = Ascii.lineFeed := by simpa using ends_cons.1 hrest
    have hs : Ascii.lineFeed ≠ Ascii.backslash := by decide
    have hq : Ascii.lineFeed ≠ Ascii.quote := by decide
    simp [marksFrom, Lexeme.closing, hs, hq]

theorem closing_unclosed {body : Bytes} (h : Unclosed body)
    (hrest : Ends (· != Ascii.lineFeed) rest) :
    ∀ tail marks, Lexeme.closing false (marksFrom pos (body ++ rest)) ≠ .closed tail marks := by
  rcases h with ⟨text, h⟩ | ⟨head, text, rfl, h⟩
  · rw [closing_quoted h]
    exact foldr_ne_closed text (closing_cut false hrest)
  · rw [List.append_assoc, closing_quoted h]
    refine foldr_ne_closed text ?_
    -- the backslash at the end of the text escapes what cuts it
    exact closing_cut true hrest

theorem read_quote (marks : List Mark) : Lexeme.read source ⟨Ascii.quote, pos⟩ marks =
    Lexeme.string source ⟨Ascii.quote, pos⟩ marks := rfl

theorem Reads.literal {body text : Bytes} (h : Quoted body text) :
    Reads source pos (Ascii.quote :: body ++ [Ascii.quote]) rest (.item (.literal text)) := by
  have hclosing : Lexeme.closing false (marksFrom (pos.after Ascii.quote)
      (body ++ [Ascii.quote] ++ rest)) =
        .closed text (marksFrom (pos.walk (Ascii.quote :: (body ++ [Ascii.quote]))) rest) := by
    rw [List.append_assoc, closing_quoted h, Position.walk_cons, Position.walk_append]
    exact foldr_closed text _
  show Reads source pos (Ascii.quote :: (body ++ [Ascii.quote])) rest _
  apply Reads.of_complete
  rw [read_quote, Lexeme.string, hclosing]
  rfl

theorem Reads.unterminated {body : Bytes} (h : Unclosed body)
    (hrest : Ends (· != Ascii.lineFeed) rest) :
    Reads source pos (Ascii.quote :: body) rest (.fault .unterminatedLiteral) := by
  apply Reads.of_fault
  rw [read_quote, Lexeme.string]
  split
  · rename_i text marks hc
    exact absurd hc (closing_unclosed h hrest text marks)
  · rfl
  · rfl

/-! ## Signs, blanks and comments -/

theorem Reads.blank (hb : b = Ascii.nul ∨ Ascii.isBlank b = true) :
    Reads source pos [b] rest .blank := by
  apply Reads.of_complete
  rcases hb with hb | hb
  · simp only [Lexeme.read, ByteClass.of_eq_nul.2 hb]
    rfl
  · simp only [Lexeme.read, ByteClass.of_eq_blank.2 hb]
    rfl

theorem Reads.comment {text : Bytes} (htext : Ascii.lineFeed ∉ text)
    (hrest : Ends (· != Ascii.lineFeed) rest) :
    Reads source pos (Ascii.semicolon :: text) rest .blank := by
  have hrun : ∀ c ∈ text, (c != Ascii.lineFeed) = true := by
    intro c hc
    have hne : c ≠ Ascii.lineFeed := fun h => htext (h ▸ hc)
    simpa using hne
  have hread : Lexeme.read source ⟨Ascii.semicolon, pos⟩ = Lexeme.comment := rfl
  apply Reads.of_upTo
  rw [hread, Lexeme.comment, afterRun_marks hrun hrest]
  rfl

theorem read_sign (hb : IsSign b) (marks : List Mark) : Lexeme.read source ⟨b, pos⟩ marks =
    Lexeme.complete (Lexeme.signMeaning source ⟨b, pos⟩) marks := by
  obtain ⟨hclass, -, hsemicolon, hdot, hunderscore, hquote, hdollar, hpercent⟩ := hb
  simp only [Lexeme.read, hclass, if_neg hsemicolon, if_neg hdot, if_neg hunderscore,
    if_neg hquote, if_neg hdollar, if_neg hpercent]

theorem isSign_punctuation (k : Punctuation) : ∃ b, spelling k = [b] ∧ IsSign b := by
  cases k
  · exact ⟨0x2c, by decide, by unfold IsSign; decide⟩
  · exact ⟨0x23, by decide, by unfold IsSign; decide⟩
  · exact ⟨0x29, by decide, by unfold IsSign; decide⟩
  · exact ⟨0x28, by decide, by unfold IsSign; decide⟩

theorem Reads.symbol {k : Punctuation} :
    Reads source pos (spelling k) rest (.item (.symbol k)) := by
  obtain ⟨b, hk, hb⟩ := isSign_punctuation k
  have hlookup : (Keyword.lookup? [b] : Option Punctuation) = some k := by
    rw [← hk, Keyword.lookup?_spelling]
  rw [hk]
  apply Reads.of_complete
  rw [read_sign hb, Lexeme.signMeaning, if_pos hb.2.1, hlookup]
  rfl

theorem Reads.unsupportedSymbol (hb : IsSign b) (hk : ∀ k : Punctuation, [b] ≠ spelling k) :
    Reads source pos [b] rest (.fault (.unsupportedSymbol b)) := by
  apply Reads.of_fault
  rw [read_sign hb, Lexeme.signMeaning, if_pos hb.2.1, Keyword.lookup?_eq_none.2 hk]
  rfl

theorem Reads.invalidCharacter (hb : Ascii.isAscii b = false) :
    Reads source pos [b] rest (.fault (.invalidCharacter b)) := by
  have hne : ∀ c, Ascii.isAscii c = true → b ≠ c := by
    rintro c hc rfl
    exact Bool.false_ne_true (hb.symm.trans hc)
  apply Reads.of_fault
  simp only [Lexeme.read, ByteClass.of_eq_symbol_of_not_ascii hb,
    if_neg (hne Ascii.semicolon rfl), if_neg (hne Ascii.dot rfl), if_neg (hne Ascii.underscore rfl),
    if_neg (hne Ascii.quote rfl), if_neg (hne Ascii.dollar rfl), if_neg (hne Ascii.percent rfl)]
  show Lexeme.signMeaning source ⟨b, pos⟩ = _
  rw [Lexeme.signMeaning, if_neg (by simp [hb])]

/-! ## The two directions -/

/-- What the grammar allows is what the scanner reads. -/
theorem Munch.reads (h : Munch lex rest sense) (source : Path) (pos : Position) :
    Reads source pos lex rest sense := by
  cases h with
  | skip hb => exact .blank hb
  | comment htext hrest => exact .comment htext hrest
  | label hn => exact .label hn
  | @instruction k _ hrest hcolon =>
    exact .word (isName_mnemonic k) hrest hcolon (wordToken_instruction k _)
  | @operand k _ hrest hcolon =>
    exact .word (isName_register k) hrest hcolon (wordToken_operand k _)
  | identifier hn hm hr hrest hcolon =>
    exact .word hn hrest hcolon (wordToken_identifier hm hr _)
  | decimal hb hrun hrest h => exact .decimal hb hrun hrest h
  | hexadecimal hrun hrest h =>
    exact .signed (by decide) (fun _ => rfl) (by decide) hrun hrest h
  | binary hrun hrest h => exact .signed (by decide) (fun _ => rfl) (by decide) hrun hrest h
  | directive hrest => exact .directive hrest
  | unsupportedDirective hname hrest hk => exact .unsupportedDirective hname hrest hk
  | literal h => exact .literal h
  | unterminated h hrest => exact .unterminated h hrest
  | symbol => exact .symbol
  | unsupportedSymbol hb hk => exact .unsupportedSymbol hb hk
  | invalidCharacter hb => exact .invalidCharacter hb

theorem split_run (p : UInt8 → Bool) (bs : Bytes) :
    ∃ run rest, bs = run ++ rest ∧ (∀ c ∈ run, p c = true) ∧ Ends p rest :=
  ⟨bs.takeWhile p, bs.dropWhile p, (List.takeWhile_append_dropWhile).symm,
    fun c hc => List.all_eq_true.1 List.all_takeWhile c hc, ends_dropWhile p bs⟩

theorem exists_word (bs : Bytes) (hb : Ascii.isLetter b = true ∨ b = Ascii.underscore) :
    ∃ lex rest sense, b :: bs = lex ++ rest ∧ Munch lex rest sense := by
  obtain ⟨run, rest, rfl, hrun, hrest⟩ := split_run Ascii.isWordByte bs
  have hn : IsName (b :: run) := ⟨hb, hrun⟩
  by_cases hcolon : Ends (· == Ascii.colon) rest
  · by_cases hm : ∃ k : Mnemonic, b :: run = spelling k
    · obtain ⟨k, hk⟩ := hm
      exact ⟨spelling k, rest, _, by rw [← hk]; rfl, .instruction hrest hcolon⟩
    by_cases hr : ∃ k : Register, b :: run = spelling k
    · obtain ⟨k, hk⟩ := hr
      exact ⟨spelling k, rest, _, by rw [← hk]; rfl, .operand hrest hcolon⟩
    exact ⟨b :: run, rest, _, rfl,
      .identifier hn (fun k h => hm ⟨k, h⟩) (fun k h => hr ⟨k, h⟩) hrest hcolon⟩
  · cases rest with
    | nil => exact absurd Ends.nil hcolon
    | cons c rest =>
      obtain rfl : c = Ascii.colon := by simpa [ends_cons] using hcolon
      exact ⟨b :: run ++ [Ascii.colon], rest, _, by simp, .label hn⟩

theorem exists_directive (bs : Bytes) :
    ∃ lex rest sense, Ascii.dot :: bs = lex ++ rest ∧ Munch lex rest sense := by
  obtain ⟨name, rest, rfl, hname, hrest⟩ := split_run Ascii.isLetter bs
  by_cases hk : ∃ k : Directive, name = spelling k
  · obtain ⟨k, rfl⟩ := hk
    exact ⟨_, rest, _, rfl, .directive hrest⟩
  · exact ⟨_, rest, _, rfl, .unsupportedDirective hname hrest fun k h => hk ⟨k, h⟩⟩

theorem Unclosed.plain {body : Bytes} (hq : b ≠ Ascii.quote) (hs : b ≠ Ascii.backslash)
    (hl : b ≠ Ascii.lineFeed) (h : Unclosed body) : Unclosed (b :: body) := by
  rcases h with ⟨text, h⟩ | ⟨head, text, rfl, h⟩
  · exact .inl ⟨b :: text, .plain hq hs hl h⟩
  · exact .inr ⟨b :: head, b :: text, rfl, .plain hq hs hl h⟩

theorem Unclosed.escaped {body : Bytes} (hl : b ≠ Ascii.lineFeed) (h : Unclosed body) :
    Unclosed (Ascii.backslash :: b :: body) := by
  rcases h with ⟨text, h⟩ | ⟨head, text, rfl, h⟩
  · exact .inl ⟨b :: text, .escaped hl h⟩
  · exact .inr ⟨Ascii.backslash :: b :: head, b :: text, rfl, .escaped hl h⟩

/-- Behind an opening quote the text is closed, or cut by a line feed or the end. -/
theorem closed_or_cut : ∀ bs : Bytes,
    (∃ body text rest, bs = body ++ Ascii.quote :: rest ∧ Quoted body text) ∨
      ∃ body rest, bs = body ++ rest ∧ Unclosed body ∧ Ends (· != Ascii.lineFeed) rest
  | [] => .inr ⟨[], [], rfl, .inl ⟨[], .nil⟩, Ends.nil⟩
  | b :: bs => by
    by_cases hq : b = Ascii.quote
    · exact .inl ⟨[], [], bs, by rw [hq]; rfl, .nil⟩
    by_cases hl : b = Ascii.lineFeed
    · exact .inr ⟨[], b :: bs, rfl, .inl ⟨[], .nil⟩, ends_cons.2 (by simp [hl])⟩
    by_cases hs : b = Ascii.backslash
    · subst hs
      match bs with
      | [] => exact .inr ⟨[Ascii.backslash], [], rfl, .inr ⟨[], [], rfl, .nil⟩, Ends.nil⟩
      | c :: bs =>
        by_cases hc : c = Ascii.lineFeed
        · exact .inr ⟨[Ascii.backslash], c :: bs, rfl, .inr ⟨[], [], rfl, .nil⟩,
            ends_cons.2 (by simp [hc])⟩
        obtain ⟨body, text, rest, rfl, h⟩ | ⟨body, rest, rfl, h, hrest⟩ := closed_or_cut bs
        · exact .inl ⟨Ascii.backslash :: c :: body, c :: text, rest, rfl, .escaped hc h⟩
        · exact .inr ⟨Ascii.backslash :: c :: body, rest, rfl, h.escaped hc, hrest⟩
    obtain ⟨body, text, rest, rfl, h⟩ | ⟨body, rest, rfl, h, hrest⟩ := closed_or_cut bs
    · exact .inl ⟨b :: body, b :: text, rest, rfl, .plain hq hs hl h⟩
    · exact .inr ⟨b :: body, rest, rfl, h.plain hq hs hl, hrest⟩

theorem exists_string (bs : Bytes) :
    ∃ lex rest sense, Ascii.quote :: bs = lex ++ rest ∧ Munch lex rest sense := by
  obtain ⟨body, text, rest, rfl, h⟩ | ⟨body, rest, rfl, h, hrest⟩ := closed_or_cut bs
  · exact ⟨Ascii.quote :: body ++ [Ascii.quote], rest, _, by simp, .literal h⟩
  · exact ⟨Ascii.quote :: body, rest, _, rfl, .unterminated h hrest⟩

theorem exists_scalar (bs : Bytes)
    (hb : Ascii.isDigit b = true ∨ b = Ascii.dollar ∨ b = Ascii.percent) :
    ∃ lex rest sense, b :: bs = lex ++ rest ∧ Munch lex rest sense := by
  obtain ⟨run, rest, rfl, hrun, hrest⟩ := split_run Ascii.isAlphanumeric bs
  rcases hb with hb | rfl | rfl
  · obtain ⟨sense, h⟩ := Numeral.total 10 "" (b :: run)
    exact ⟨_, rest, sense, rfl, .decimal hb hrun hrest h⟩
  · obtain ⟨sense, h⟩ := Numeral.total 16 "$" run
    exact ⟨_, rest, sense, rfl, .hexadecimal hrun hrest h⟩
  · obtain ⟨sense, h⟩ := Numeral.total 2 "%" run
    exact ⟨_, rest, sense, rfl, .binary hrun hrest h⟩

theorem exists_sign (bs : Bytes) (hb : IsSign b) :
    ∃ lex rest sense, b :: bs = lex ++ rest ∧ Munch lex rest sense := by
  by_cases hk : ∃ k : Punctuation, [b] = spelling k
  · obtain ⟨k, hk⟩ := hk
    exact ⟨spelling k, bs, _, by rw [← hk]; rfl, .symbol⟩
  · exact ⟨[b], bs, _, rfl, .unsupportedSymbol hb fun k h => hk ⟨k, h⟩⟩

/-- The grammar allows some first lexeme, whatever comes. -/
theorem Munch.total (b : UInt8) (bs : Bytes) :
    ∃ lex rest sense, b :: bs = lex ++ rest ∧ Munch lex rest sense := by
  match hclass : ByteClass.of b with
  | .nul => exact ⟨[b], bs, _, rfl, .skip (.inl (ByteClass.of_eq_nul.1 hclass))⟩
  | .blank => exact ⟨[b], bs, _, rfl, .skip (.inr (ByteClass.of_eq_blank.1 hclass))⟩
  | .letter => exact exists_word bs (.inl (ByteClass.of_eq_letter.1 hclass))
  | .digit => exact exists_scalar bs (.inl (ByteClass.of_eq_digit.1 hclass))
  | .symbol =>
    by_cases hascii : Ascii.isAscii b = true
    · by_cases hsemicolon : b = Ascii.semicolon
      · subst hsemicolon
        obtain ⟨text, rest, rfl, htext, hrest⟩ := split_run (· != Ascii.lineFeed) bs
        exact ⟨_, rest, _, rfl, .comment (fun h => by simpa using htext _ h) hrest⟩
      by_cases hdot : b = Ascii.dot
      · subst hdot
        exact exists_directive bs
      by_cases hunderscore : b = Ascii.underscore
      · exact exists_word bs (.inr hunderscore)
      by_cases hquote : b = Ascii.quote
      · subst hquote
        exact exists_string bs
      by_cases hdollar : b = Ascii.dollar
      · exact exists_scalar bs (.inr (.inl hdollar))
      by_cases hpercent : b = Ascii.percent
      · exact exists_scalar bs (.inr (.inr hpercent))
      exact exists_sign bs
        ⟨hclass, hascii, hsemicolon, hdot, hunderscore, hquote, hdollar, hpercent⟩
    · exact ⟨[b], bs, _, rfl, .invalidCharacter (by simpa using hascii)⟩

theorem IsName.ne_nil (h : IsName name) : name ≠ [] := by
  rintro rfl
  exact h

theorem Munch.ne_nil (h : Munch lex rest sense) : lex ≠ [] := by
  cases h with
  | label hn => exact List.append_ne_nil_of_left_ne_nil hn.ne_nil _
  | @instruction k _ _ _ => exact (isName_mnemonic k).ne_nil
  | @operand k _ _ _ => exact (isName_register k).ne_nil
  | identifier hn _ _ _ _ => exact hn.ne_nil
  | @symbol k _ =>
    obtain ⟨b, hk, -⟩ := isSign_punctuation k
    simp [hk]
  | _ => exact List.cons_ne_nil _ _

/-! ## What may follow instead -/

theorem Quoted.append {a b s t : Bytes} (ha : Quoted a s) (hb : Quoted b t) :
    Quoted (a ++ b) (s ++ t) := by
  induction ha with
  | nil => exact hb
  | plain hq hs hl _ ih => exact .plain hq hs hl ih
  | escaped hl _ ih => exact .escaped hl ih

theorem Quoted.lineFeed_not_mem {body text : Bytes} (h : Quoted body text) :
    Ascii.lineFeed ∉ body := by
  induction h with
  | nil => simp
  | plain _ _ hl _ ih => exact List.not_mem_cons_of_ne_of_not_mem hl.symm ih
  | escaped hl _ ih =>
    exact List.not_mem_cons_of_ne_of_not_mem (by decide)
      (List.not_mem_cons_of_ne_of_not_mem hl.symm ih)

/-- A carriage return does not close a string. -/
theorem Unclosed.carriageReturn {body : Bytes} (h : Unclosed body) :
    Unclosed (body ++ [Ascii.carriageReturn]) := by
  have hplain : Quoted [Ascii.carriageReturn] [Ascii.carriageReturn] :=
    .plain (by decide) (by decide) (by decide) .nil
  have hescaped : Quoted [Ascii.backslash, Ascii.carriageReturn] [Ascii.carriageReturn] :=
    .escaped (by decide) .nil
  left
  rcases h with ⟨text, h⟩ | ⟨head, text, rfl, h⟩
  · exact ⟨_, h.append hplain⟩
  · rw [List.append_assoc]
    exact ⟨_, h.append hescaped⟩

/-- A lexeme stays one in front of whatever ends the same runs. Either these runs are of classes
without line ends, or the lexeme goes on up to the line feed, over a carriage return too. -/
theorem Munch.follow (h : Munch lex rest sense) :
    (∀ more, (∀ p : UInt8 → Bool, p Ascii.carriageReturn = false → p Ascii.lineFeed = false →
      Ends p rest → Ends p more) → Munch lex more sense) ∨
    Ends (· != Ascii.lineFeed) rest ∧ ∀ more, Ends (· != Ascii.lineFeed) more →
      Munch lex more sense ∧ Munch (lex ++ [Ascii.carriageReturn]) more sense := by
  cases h with
  | comment htext hrest =>
    refine .inr ⟨hrest, fun more hmore => ⟨.comment htext hmore, .comment ?_ hmore⟩⟩
    simpa using ⟨htext, by decide⟩
  | unterminated h hrest =>
    exact .inr ⟨hrest, fun more hmore =>
      ⟨.unterminated h hmore, .unterminated h.carriageReturn hmore⟩⟩
  | skip hb => exact .inl fun _ _ => .skip hb
  | label hn => exact .inl fun _ _ => .label hn
  | instruction hrest hcolon =>
    exact .inl fun _ h => .instruction (h _ rfl rfl hrest) (h _ rfl rfl hcolon)
  | operand hrest hcolon =>
    exact .inl fun _ h => .operand (h _ rfl rfl hrest) (h _ rfl rfl hcolon)
  | identifier hn hm hr hrest hcolon =>
    exact .inl fun _ h => .identifier hn hm hr (h _ rfl rfl hrest) (h _ rfl rfl hcolon)
  | decimal hb hrun hrest hn => exact .inl fun _ h => .decimal hb hrun (h _ rfl rfl hrest) hn
  | hexadecimal hrun hrest hn => exact .inl fun _ h => .hexadecimal hrun (h _ rfl rfl hrest) hn
  | binary hrun hrest hn => exact .inl fun _ h => .binary hrun (h _ rfl rfl hrest) hn
  | directive hrest => exact .inl fun _ h => .directive (h _ rfl rfl hrest)
  | unsupportedDirective hname hrest hk =>
    exact .inl fun _ h => .unsupportedDirective hname (h _ rfl rfl hrest) hk
  | literal hq => exact .inl fun _ _ => .literal hq
  | symbol => exact .inl fun _ _ => .symbol
  | unsupportedSymbol hb hk => exact .inl fun _ _ => .unsupportedSymbol hb hk
  | invalidCharacter hb => exact .inl fun _ _ => .invalidCharacter hb

/-- To show something of what stands behind some bytes, lexeme by lexeme. -/
@[elab_as_elim]
theorem lexeme_induction {P : Bytes → Bytes → Prop} (nil : ∀ before, P before [])
    (munch : ∀ before lex rest sense, Munch lex rest sense → P (before ++ lex) rest →
      P before (lex ++ rest)) (before now : Bytes) : P before now := by
  generalize hn : now.length = n
  induction n using Nat.strongRecOn generalizing before now with
  | ind n ih =>
    cases now with
    | nil => exact nil before
    | cons b now =>
      obtain ⟨lex, rest, sense, hsplit, hm⟩ := Munch.total b now
      have hlex : 0 < lex.length := List.length_pos_iff.2 hm.ne_nil
      have hshort : rest.length < n := by
        rw [← hn, hsplit, List.length_append]
        omega
      rw [hsplit]
      exact munch before lex rest sense hm (ih rest.length hshort (before ++ lex) rest rfl)

end Grammar

end Asm6502
