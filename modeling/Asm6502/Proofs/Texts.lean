import Asm6502.Proofs.FirstFault
import Asm6502.Proofs.Spelling
import Asm6502.Proofs.Text.Encoded

/-!
# Sources that are texts

A lexeme without a fault never ends inside a character (`Grammar.Munch.cut`). So the tokens of a
text carry texts (`Grammar.Derives.texts`), and a fault of a text stands at the start of a character
(`Grammar.Derives.first_fault_text`).
-/

namespace Asm6502

open Utf8 (IsText)

/-- An item that carries a text, if it carries any bytes. -/
def Item.Legible : Item → Prop
  | identifier name => IsText name
  | label name => IsText name
  | literal text => IsText text
  | _ => True

theorem Ascii.isAscii_of_isWordByte {b : UInt8} : isWordByte b = true → isAscii b = true :=
  forall_byte (by decide +kernel) b

theorem Ascii.isAscii_of_isBlank {b : UInt8} : isBlank b = true → isAscii b = true :=
  forall_byte (by decide +kernel) b

namespace Grammar

open Keyword (spelling)

variable {source : Path} {before now lex rest name body text : Bytes} {sense : Sense} {i : Item}
  {ts : List Token} {e : Error} {scan : Scan}

theorem IsName.ascii (h : IsName name) : ∀ b ∈ name, Ascii.isAscii b = true := by
  cases name with
  | nil => exact h.elim
  | cons b name =>
    refine List.forall_mem_cons.2 ⟨?_, fun c hc => Ascii.isAscii_of_isWordByte (h.2 c hc)⟩
    rcases h.1 with hb | rfl
    · exact Ascii.isAscii_of_isLetter hb
    · rfl

theorem IsName.lineFeed_not_mem (h : IsName name) : Ascii.lineFeed ∉ name := by
  cases name with
  | nil => exact h.elim
  | cons b name =>
    intro hm
    rcases List.mem_cons.1 hm with rfl | hm
    · rcases h.1 with hb | hb <;> cases hb
    · cases h.2 _ hm

theorem spelling_ascii (k : Punctuation) : ∀ b ∈ spelling k, Ascii.isAscii b = true := by
  obtain ⟨b, hk, hb⟩ := isSign_punctuation k
  simpa [hk] using hb.2.1

/-- Leaving out the backslashes of a quoted text leaves a text. -/
theorem Quoted.isText (h : Quoted body text) (front : Bytes) (hbody : IsText (front ++ body)) :
    IsText (front ++ text) := by
  induction h generalizing front with
  | nil => exact hbody
  | @plain b body text _ _ _ _ ih =>
    have := ih (front ++ [b]) (by simpa using hbody)
    simpa using this
  | @escaped b body text _ _ ih =>
    have hbody := IsText.erase (b := Ascii.backslash) rfl hbody
    have := ih (front ++ [b]) (by simpa using hbody)
    simpa using this

/-- A lexeme cuts a text at the end of a character. -/
theorem Munch.cut (h : Munch lex rest sense) (hsense : ∀ cause, sense ≠ .fault cause)
    (ht : IsText (lex ++ rest)) : IsText lex ∧ IsText rest := by
  have hascii : (∀ b ∈ lex, Ascii.isAscii b = true) → IsText lex ∧ IsText rest :=
    fun hlex => ⟨.ascii hlex, ht.of_append_ascii hlex⟩
  cases h with
  | skip hb =>
    refine hascii ?_
    rcases hb with rfl | hb
    · simp [Ascii.isAscii, Ascii.nul]
    · simpa using Ascii.isAscii_of_isBlank hb
  | comment htext hrest =>
    cases rest with
    | nil => exact ⟨by simpa using ht, Utf8.isText_nil⟩
    | cons b rest =>
      obtain rfl : b = Ascii.lineFeed := by simpa using ends_cons.1 hrest
      obtain ⟨hlex, hrest⟩ := ht.split rfl
      exact ⟨hlex, (Utf8.isText_byte (b := Ascii.lineFeed) rfl).append hrest⟩
  | label hn =>
    refine hascii fun b hb => ?_
    rcases List.mem_append.1 hb with hb | hb
    · exact hn.ascii b hb
    · obtain rfl := List.mem_singleton.1 hb
      rfl
  | @instruction k _ hrest hcolon => exact hascii (isName_mnemonic k).ascii
  | @operand k _ hrest hcolon => exact hascii (isName_register k).ascii
  | identifier hn _ _ _ _ => exact hascii hn.ascii
  | @decimal b run _ _ hb hrun _ _ =>
    have hrun := fun c hc => Ascii.isAscii_of_isAlphanumeric (hrun c hc)
    have hb := Ascii.isAscii_of_isAlphanumeric (b := b) (by simp [Ascii.isAlphanumeric, hb])
    exact hascii (List.forall_mem_cons.2 ⟨hb, hrun⟩)
  | hexadecimal hrun _ _ | binary hrun _ _ =>
    have hrun := fun c hc => Ascii.isAscii_of_isAlphanumeric (hrun c hc)
    exact hascii (List.forall_mem_cons.2 ⟨rfl, hrun⟩)
  | @directive k _ _ =>
    have hname := fun c hc => Ascii.isAscii_of_isLetter (k.letters c hc)
    exact hascii (List.forall_mem_cons.2 ⟨rfl, hname⟩)
  | literal _ =>
    rw [List.append_assoc] at ht
    obtain ⟨hopen, hrest⟩ := ht.split rfl
    exact ⟨hopen.append (Utf8.isText_byte rfl), hrest⟩
  | @symbol k _ => exact hascii (spelling_ascii k)
  | unsupportedDirective | unterminated | unsupportedSymbol | invalidCharacter =>
    exact absurd rfl (hsense _)

theorem Numeral.legible {radix : Nat} {sign : String} {run : Bytes}
    (h : Numeral radix sign run (.item i)) : i.Legible := by
  cases h
  trivial

/-- What a lexeme of a text says is text. -/
theorem Munch.legible (h : Munch lex rest (.item i)) (ht : IsText (lex ++ rest)) : i.Legible := by
  obtain ⟨hlex, -⟩ := h.cut (by simp) ht
  cases h with
  | label hn => exact .ascii hn.ascii
  | identifier hn _ _ _ _ => exact .ascii hn.ascii
  | literal h =>
    have hbody := ((hlex.split rfl).1).tail rfl
    exact h.isText [] hbody
  | decimal _ _ _ h => exact h.legible
  | hexadecimal _ _ h => exact h.legible
  | binary _ _ h => exact h.legible
  | _ => trivial

/-- The tokens of a text say texts. -/
theorem Derives.texts (h : Derives source before now scan) (ht : IsText now) :
    ∀ t ∈ scan.tokens, ∃ i line, t = Item.token source line i ∧ i.WellFormed ∧ i.Legible := by
  induction h with
  | done => simp
  | blank hm _ ih => exact ih (hm.cut (by simp) ht).2
  | item hm _ ih =>
    exact List.forall_mem_cons.2 ⟨⟨_, _, rfl, hm.wellFormed, hm.legible ht⟩,
      ih (hm.cut (by simp) ht).2⟩
  | fault _ => simp

/-- A fault of a text stands at the start of a character. -/
theorem Derives.first_fault_text (h : Derives source [] now ⟨ts, some e⟩) (ht : IsText now) :
    ∃ head lex rest cause, now = head ++ (lex ++ rest) ∧ Derives source [] head ⟨ts, none⟩ ∧
      Munch lex rest (.fault cause) ∧
      e = (Error.ofCause cause).locate source (Position.past head) ∧
      IsText head ∧ IsText (lex ++ rest) := by
  refine h.first_fault_keeping (Q := fun before now => IsText before ∧ IsText now) ?_
    ⟨Utf8.isText_nil, ht⟩
  rintro before lex rest sense hm hsense ⟨hbefore, hnow⟩
  obtain ⟨hlex, hrest⟩ := hm.cut hsense hnow
  exact ⟨hbefore.append hlex, hrest⟩

end Grammar

end Asm6502
