import Asm6502.Proofs.Acceptance

/-!
# Spelling

The way back from tokens to bytes.

- `Spells i text`: the bytes `text` spell the item `i`. A scalar has a spelling for every choice of
  digits that stand for it, in each of the three radices, leading zeros and either case included.
- Spellings with gaps between them come back as the items that they spell, each with the line that
  it stands on (`derives_layout`).
- Whatever a lexer emits is spellable, over any reader (`Lexer.spellable_of_emitted`).
-/

namespace Asm6502

open Keyword (spelling)
open Grammar (IsName IsDigit Digits Quoted Munch Derives Ends)
open Scan (marksFrom)

/-! ## Well-formed items and their spellings -/

/-- What a token can say. -/
def Item.WellFormed : Item → Prop
  | identifier name => IsName name ∧ (∀ k : Mnemonic, name ≠ spelling k) ∧
      ∀ k : Register, name ≠ spelling k
  | label name => IsName name
  | literal text => Ascii.lineFeed ∉ text
  | _ => True

namespace Spelling

/-- A text with a backslash before every quote and every backslash. -/
def escape (text : Bytes) : Bytes :=
  text.flatMap fun b => if b = Ascii.quote ∨ b = Ascii.backslash then [Ascii.backslash, b] else [b]

/-- The bytes that spell an item. -/
inductive Spells : Item → Bytes → Prop where
  | directive (k) : Spells (.directive k) (Ascii.dot :: spelling k)
  | instruction (k) : Spells (.instruction k) (spelling k)
  | operand (k) : Spells (.operand k) (spelling k)
  | symbol (k) : Spells (.symbol k) (spelling k)
  | identifier (name) : Spells (.identifier name) name
  | label (name) : Spells (.label name) (name ++ [Ascii.colon])
  | literal (text) : Spells (.literal text) (Ascii.quote :: escape text ++ [Ascii.quote])
  | decimal {v : UInt16} {digits} : Digits 10 v.toNat digits → Spells (.scalar v) digits
  | hexadecimal {v : UInt16} {digits} : Digits 16 v.toNat digits →
      Spells (.scalar v) (Ascii.dollar :: digits)
  | binary {v : UInt16} {digits} : Digits 2 v.toNat digits →
      Spells (.scalar v) (Ascii.percent :: digits)

/-- What may stand between spellings: NULs, blanks, and comments with the line feed that ends
them. -/
inductive Gap : Bytes → Prop where
  | nil : Gap []
  | skip {b gap} : b = Ascii.nul ∨ Ascii.isBlank b = true → Gap gap → Gap (b :: gap)
  | comment {text gap} : Ascii.lineFeed ∉ text → Gap gap →
      Gap (Ascii.semicolon :: text ++ Ascii.lineFeed :: gap)

/-! ## Literals -/

theorem quoted_escape {text : Bytes} (h : Ascii.lineFeed ∉ text) : Quoted (escape text) text := by
  induction text with
  | nil => exact .nil
  | cons b text ih =>
    obtain ⟨hb, htext⟩ := List.ne_and_not_mem_of_not_mem_cons h
    have hl : b ≠ Ascii.lineFeed := hb.symm
    by_cases hspecial : b = Ascii.quote ∨ b = Ascii.backslash
    · have hcons : escape (b :: text) = Ascii.backslash :: b :: escape text := by
        simp [escape, if_pos hspecial]
      rw [hcons]
      exact .escaped hl (ih htext)
    · have hcons : escape (b :: text) = b :: escape text := by simp [escape, if_neg hspecial]
      rw [hcons]
      exact .plain (fun h => hspecial (.inl h)) (fun h => hspecial (.inr h)) hl (ih htext)

theorem lineFeed_not_mem_of_quoted {body text : Bytes} (h : Quoted body text) :
    Ascii.lineFeed ∉ text := by
  induction h with
  | nil => simp
  | plain _ _ hl _ ih => exact List.not_mem_cons_of_ne_of_not_mem hl.symm ih
  | escaped hl _ ih => exact List.not_mem_cons_of_ne_of_not_mem hl.symm ih

/-! ## Scalars -/

theorem isAlphanumeric_of_isDigit {radix : Nat} {b : UInt8} (h : IsDigit radix b) :
    Ascii.isAlphanumeric b = true := by
  obtain ⟨d, hd⟩ := Grammar.isDigit_iff.1 h
  obtain ⟨hvalue, -⟩ := Option.filter_eq_some_iff.1 hd
  revert hvalue
  unfold Ascii.digitValue? Ascii.isAlphanumeric Ascii.isLetter
  repeat' split
  all_goals simp_all

theorem isDigit_of_isDigit_ten {b : UInt8} : IsDigit 10 b → Ascii.isDigit b = true :=
  forall_byte (by unfold IsDigit; decide +kernel) b

theorem exists_spelling (i : Item) : ∃ text, Spells i text := by
  cases i with
  | directive k => exact ⟨_, .directive k⟩
  | instruction k => exact ⟨_, .instruction k⟩
  | operand k => exact ⟨_, .operand k⟩
  | symbol k => exact ⟨_, .symbol k⟩
  | identifier name => exact ⟨_, .identifier name⟩
  | label name => exact ⟨_, .label name⟩
  | literal text => exact ⟨_, .literal text⟩
  | scalar v =>
    obtain ⟨digits, h⟩ := Grammar.exists_digits (by decide : 2 ≤ 10) (by decide) v.toNat
    exact ⟨digits, .decimal h⟩

/-! ## Spellings in front of gaps -/

/-- A byte that keeps spellings apart. -/
def IsApart (b : UInt8) : Prop :=
  b = Ascii.nul ∨ Ascii.isBlank b = true ∨ b = Ascii.semicolon

def Apart (rest : Bytes) : Prop := ∀ b, rest.head? = some b → IsApart b

theorem isWordByte_of_isApart {b : UInt8} : IsApart b → Ascii.isWordByte b = false :=
  forall_byte (by unfold IsApart; decide +kernel) b

theorem ne_colon_of_isApart {b : UInt8} : IsApart b → (b == Ascii.colon) = false :=
  forall_byte (by unfold IsApart; decide +kernel) b

theorem Apart.ends {p : UInt8 → Bool} {rest : Bytes} (h : Apart rest)
    (hp : ∀ b, p b = true → Ascii.isWordByte b = true) : Ends p rest := by
  intro b hb
  have hword := isWordByte_of_isApart (h b hb)
  cases hpb : p b with
  | false => rfl
  | true => exact absurd (hp b hpb) (by simp [hword])

theorem Spells.munch {i : Item} {text rest : Bytes} (h : Spells i text) (hi : i.WellFormed)
    (hrest : Apart rest) : Munch text rest (.item i) := by
  have hword : Ends Ascii.isWordByte rest := hrest.ends fun _ h => h
  have halnum : Ends Ascii.isAlphanumeric rest :=
    hrest.ends fun _ => Ascii.isWordByte_of_isAlphanumeric
  have hcolon : Ends (· == Ascii.colon) rest := fun b hb => ne_colon_of_isApart (hrest b hb)
  cases h with
  | directive k => exact .directive (hrest.ends fun _ => Ascii.isWordByte_of_isLetter)
  | instruction k => exact .instruction hword hcolon
  | operand k => exact .operand hword hcolon
  | symbol k => exact .symbol
  | identifier name => exact .identifier hi.1 hi.2.1 hi.2.2 hword hcolon
  | label name => exact .label hi
  | literal text => exact .literal (quoted_escape hi)
  | @decimal v _ h =>
    obtain ⟨b, run, rfl⟩ := List.exists_cons_of_ne_nil h.1
    obtain ⟨hb, hrun⟩ := List.forall_mem_cons.1 h.2.1
    exact .decimal (isDigit_of_isDigit_ten hb) (fun c hc => isAlphanumeric_of_isDigit (hrun c hc))
      halnum h.numeral
  | hexadecimal h =>
    exact .hexadecimal (fun c hc => isAlphanumeric_of_isDigit (h.2.1 c hc)) halnum h.numeral
  | binary h => exact .binary (fun c hc => isAlphanumeric_of_isDigit (h.2.1 c hc)) halnum h.numeral

theorem Gap.apart {gap : Bytes} (h : Gap gap) (hne : gap ≠ []) (rest : Bytes) :
    Apart (gap ++ rest) := by
  intro b hb
  cases h with
  | nil => exact absurd rfl hne
  | skip hc _ =>
    obtain rfl : _ = b := by simpa using hb
    exact hc.imp_right .inl
  | comment _ _ =>
    obtain rfl : _ = b := by simpa using hb
    exact .inr (.inr rfl)

theorem Gap.derives {source : Path} {before gap rest : Bytes} {scan : Scan} (h : Gap gap)
    (hd : Derives source (before ++ gap) rest scan) : Derives source before (gap ++ rest) scan := by
  induction h generalizing before with
  | nil => simpa using hd
  | @skip b gap hb _ ih =>
    show Derives source before ([b] ++ (gap ++ rest)) scan
    refine .blank (.skip hb) (ih ?_)
    rwa [List.append_assoc]
  | @comment text gap htext _ ih =>
    have hlf : Derives source (before ++ Ascii.semicolon :: text) (Ascii.lineFeed :: (gap ++ rest))
        scan := by
      show Derives source _ ([Ascii.lineFeed] ++ (gap ++ rest)) scan
      refine .blank (.skip (.inr rfl)) (ih ?_)
      simpa using hd
    have hsplit : Ascii.semicolon :: text ++ Ascii.lineFeed :: gap ++ rest =
        (Ascii.semicolon :: text) ++ Ascii.lineFeed :: (gap ++ rest) := by simp
    rw [hsplit]
    exact .blank (.comment htext (Grammar.ends_cons.2 (by decide))) hlf

/-! ## Layouts -/

/-- A well-formed item, a spelling of it, and the gap behind the spelling. -/
structure Piece where
  item : Item
  text : Bytes
  gap : Bytes
  wellFormed : item.WellFormed
  spells : Spells item text
  isGap : Gap gap

def layout (pieces : List Piece) : Bytes := pieces.flatMap fun p => p.text ++ p.gap

/-- Only the last gap may be empty. -/
def Spaced : List Piece → Prop
  | [] => True
  | p :: pieces => (pieces ≠ [] → p.gap ≠ []) ∧ Spaced pieces

/-- The tokens that pieces behind `before` spell: one each, on the line where it starts. -/
def tokensOf (source : Path) : Bytes → List Piece → List Token
  | _, [] => []
  | before, p :: pieces =>
    p.item.token source (UInt32.ofNat (before.count Ascii.lineFeed + 1)) ::
      tokensOf source (before ++ p.text ++ p.gap) pieces

theorem line_past {before : Bytes} (h : before.count Ascii.lineFeed < 0xffffffff) :
    (Position.past before).line = UInt32.ofNat (before.count Ascii.lineFeed + 1) := by
  show UInt32.ofNat (min (before.count Ascii.lineFeed + 1) 0xffffffff) = _
  rw [Nat.min_eq_left (by omega)]

theorem layout_cons (p : Piece) (pieces : List Piece) :
    layout (p :: pieces) = p.text ++ (p.gap ++ layout pieces) := by
  simp [layout]

theorem derives_layout (source : Path) {before : Bytes} {pieces : List Piece}
    (hspaced : Spaced pieces)
    (hlines : (before ++ layout pieces).count Ascii.lineFeed < 0xffffffff) :
    Derives source before (layout pieces) ⟨tokensOf source before pieces, none⟩ := by
  induction pieces generalizing before with
  | nil => exact .done
  | cons p pieces ih =>
    obtain ⟨hgap, hspaced⟩ := hspaced
    have hbefore : before.count Ascii.lineFeed < 0xffffffff := by
      rw [List.count_append] at hlines
      omega
    have hapart : Apart (p.gap ++ layout pieces) := by
      by_cases hne : p.gap = []
      · have hlast : pieces = [] := Decidable.byContradiction fun h => hgap h hne
        simp [hne, hlast, layout, Apart]
      · exact p.isGap.apart hne _
    have hrest : Derives source (before ++ p.text ++ p.gap) (layout pieces)
        ⟨tokensOf source (before ++ p.text ++ p.gap) pieces, none⟩ := by
      apply ih hspaced
      rwa [List.append_assoc, List.append_assoc, ← layout_cons]
    rw [layout_cons, tokensOf, ← line_past hbefore]
    exact .item (p.spells.munch p.wellFormed hapart) (p.isGap.derives hrest)

end Spelling

namespace Lexer

open Spelling

variable {ρ : Type} [Reader ρ]

theorem ofReader_layout {r : ρ} {path : Path} {lead : Bytes} {pieces : List Piece}
    (hlead : Gap lead) (hspaced : Spaced pieces)
    (hr : Reader.Holds r path (lead ++ layout pieces)) (hne : lead ++ layout pieces ≠ [])
    (hlines : (lead ++ layout pieces).count Ascii.lineFeed < 0xffffffff) :
    ∃ l, (ofReader r).1 = .ok l ∧
      l.tokens.toList = tokensOf path lead pieces ++ [.finish] := by
  have hderives : Derives path [] (lead ++ layout pieces) ⟨tokensOf path lead pieces, none⟩ :=
    hlead.derives (derives_layout path hspaced hlines)
  have hscan : Scan.ofBytes path (lead ++ layout pieces) = ⟨tokensOf path lead pieces, none⟩ :=
    hderives.scan_eq
  have hout := ofReader_outcome hr hne
  rw [hscan] at hout
  cases hl : (ofReader r).1 with
  | error e => simp [hl, Except.map, Scan.outcome] at hout
  | ok l =>
    refine ⟨l, rfl, ?_⟩
    simpa [hl, Except.map, Scan.outcome] using hout

end Lexer

/-! ## What lexers emit -/

namespace Grammar

theorem Numeral.wellFormed {radix : Nat} {sign : String} {run : Bytes} {i : Item}
    (h : Numeral radix sign run (.item i)) : i.WellFormed := by
  cases h
  trivial

theorem Munch.wellFormed {lex rest : Bytes} {i : Item} (h : Munch lex rest (.item i)) :
    i.WellFormed := by
  cases h with
  | label hn => exact hn
  | identifier hn hm hr _ _ => exact ⟨hn, hm, hr⟩
  | literal h => exact Spelling.lineFeed_not_mem_of_quoted h
  | decimal _ _ _ h => exact h.wellFormed
  | hexadecimal _ _ h => exact h.wellFormed
  | binary _ _ h => exact h.wellFormed
  | _ => trivial

end Grammar

/-- The token says something that is well-formed and has a spelling. -/
def Token.Spellable (t : Token) : Prop :=
  ∃ (i : Item) (source : Path) (line : UInt32), t = i.token source line ∧ i.WellFormed ∧
    ∃ text, Spelling.Spells i text

/-- A scan has spellable tokens only, also of a source that could not be read to its end. -/
theorem Scan.spellable_of_mem (source : Path) (fault? : Option Error) (before now : Bytes) :
    ∀ t ∈ (ofMarks source fault? (marksFrom (Position.past before) now)).tokens, t.Spellable := by
  induction before, now using Grammar.lexeme_induction with
  | nil before => simp [marksFrom, ofMarks]
  | munch before lex rest sense hm ih =>
    intro t ht
    rcases hm.onto_or_cut source fault? before with ⟨-, hcut⟩ | hstep
    · simp [hcut] at ht
    · rw [hstep] at ht
      cases sense with
      | blank => exact ih t ht
      | item i =>
        rcases List.mem_cons.1 ht with rfl | ht
        · exact ⟨i, source, _, rfl, hm.wellFormed, Spelling.exists_spelling i⟩
        · exact ih t ht
      | fault cause => simp [Sense.onto] at ht

namespace Lexer

open Spelling

variable {ρ : Type} [Reader ρ]

theorem spellable_of_emitted (r : ρ) {t : Token}
    (h : .emitted t ∈ (ofReader r).2 ∨ ∃ l, (ofReader r).1 = .ok l ∧ t ∈ l.tokens.toList) :
    t = .finish ∨ t.Spellable := by
  obtain ⟨source, fault?, bs, hevents, htokens⟩ := ofReader_scan r
  have hmem : t ∈ (Scan.ofMarks source fault? (marksFrom .start bs)).tokens ++ [.finish] := by
    rcases h with h | ⟨l, hl, h⟩
    · exact hevents t h
    · rwa [htokens l hl] at h
  rcases List.mem_append.1 hmem with h | h
  · exact .inr (Scan.spellable_of_mem source fault? [] bs t h)
  · exact .inl (List.mem_singleton.1 h)

/-- Lexing undoes spelling, and what is emitted can be spelled. -/
theorem lexing_undoes_spelling (r : ρ) :
    (∀ (path : Path) (lead : Bytes) (pieces : List Piece), Gap lead → Spaced pieces →
      Reader.Holds r path (lead ++ layout pieces) → lead ++ layout pieces ≠ [] →
      (lead ++ layout pieces).count Ascii.lineFeed < 0xffffffff →
      ∃ l, (ofReader r).1 = .ok l ∧ l.tokens.toList = tokensOf path lead pieces ++ [.finish]) ∧
    ∀ t, (.emitted t ∈ (ofReader r).2 ∨ ∃ l, (ofReader r).1 = .ok l ∧ t ∈ l.tokens.toList) →
      t = .finish ∨ t.Spellable :=
  ⟨fun _ _ _ hlead hspaced hr hne hlines => ofReader_layout hlead hspaced hr hne hlines,
    fun _ h => spellable_of_emitted r h⟩

/-- A register and a literal of one quote, behind a comment. -/
theorem lexing_undoes_spelling_below_comment :
    ∃ l, (ofReader (MemoryReader.ofBytes (Ascii.bytes ";\nX \"\\\"\"") ⟨"x.s"⟩)).1 = .ok l ∧
      l.tokens.toList = [.ofKeyword Register.indexX ⟨"x.s"⟩ 2,
        .ofText .literal [Ascii.quote] ⟨"x.s"⟩ 2, .finish] := by
  have hlead : Gap [Ascii.semicolon, Ascii.lineFeed] := @Gap.comment [] [] (by simp) .nil
  have hspace : Gap [Ascii.space] := .skip (.inr rfl) .nil
  let pieces : List Piece := [
    ⟨.operand .indexX, _, [Ascii.space], trivial, .operand _, hspace⟩,
    ⟨.literal [Ascii.quote], _, [], (by decide : Ascii.lineFeed ∉ [Ascii.quote]), .literal _, .nil⟩]
  have hlines : (Ascii.bytes ";\nX \"\\\"\"").count Ascii.lineFeed < 0xffffffff := by decide
  exact (lexing_undoes_spelling _).1 ⟨"x.s"⟩ _ pieces hlead (by simp [Spaced, pieces])
    (MemoryReader.holds _ _) (by simp) hlines

end Lexer

end Asm6502
