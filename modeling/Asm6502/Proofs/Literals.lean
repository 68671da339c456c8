import Asm6502.Proofs.Boundaries
import Asm6502.Proofs.Spelling
import Mathlib.Algebra.Ring.Parity

/-!
# Reading literals

Which quote closes a string is a matter of parity: the first one in its line behind an even number
of backslashes. `Grammar.Inside` says so of what stands between the quotes, without a flag that is
carried along, and `Grammar.unescape` is the text that it gives. They are what the rules of the
grammar allow between quotes (`Grammar.quoted_iff`).
-/

namespace Asm6502

namespace Grammar

variable {b : UInt8} {bs body text : Bytes}

/-! ## Backslashes -/

/-- The number of backslashes right at the end of some bytes. -/
def trailing (bs : Bytes) : Nat := (bs.reverse.takeWhile (· == Ascii.backslash)).length

theorem trailing_cons (b : UInt8) (bs : Bytes) : trailing (b :: bs) =
    if b = Ascii.backslash ∧ trailing bs = bs.length then bs.length + 1 else trailing bs := by
  simp only [trailing, List.reverse_cons, List.takeWhile_append, List.length_reverse]
  by_cases hall : (bs.reverse.takeWhile (· == Ascii.backslash)).length = bs.length
  · by_cases hb : b = Ascii.backslash <;> simp [hall, hb]
  · simp [hall]

theorem trailing_cons_of_ne (hb : b ≠ Ascii.backslash) : trailing (b :: bs) = trailing bs := by
  rw [trailing_cons, if_neg fun h => hb h.1]

theorem trailing_le (bs : Bytes) : trailing bs ≤ bs.length := by
  have hle := (List.takeWhile_sublist (· == Ascii.backslash) (l := bs.reverse)).length_le
  rwa [List.length_reverse] at hle

/-- A backslash and what it escapes do not change the parity. -/
theorem even_trailing_pair (b : UInt8) (bs : Bytes) :
    Even (trailing (Ascii.backslash :: b :: bs)) ↔ Even (trailing bs) := by
  have hle := trailing_le bs
  rw [trailing_cons, trailing_cons, List.length_cons]
  by_cases hall : b = Ascii.backslash ∧ trailing bs = bs.length
  · rw [if_pos hall, if_pos ⟨rfl, rfl⟩, hall.2, Nat.even_add_one, Nat.even_add_one, not_not]
  · rw [if_neg hall, if_neg (by omega)]

/-! ## Between the quotes -/

/-- What a string has between its quotes: the quote behind it is the first in its line behind an
even number of backslashes. -/
structure Inside (body : Bytes) : Prop where
  inLine : Ascii.lineFeed ∉ body
  escaped : ∀ head tail, body = head ++ Ascii.quote :: tail → Odd (trailing head)
  closes : Even (trailing body)

/-- The text without the backslashes that escape. -/
def unescape : Bytes → Bytes
  | [] => []
  | [b] => if b = Ascii.backslash then [] else [b]
  | b :: c :: rest =>
    if b = Ascii.backslash then c :: unescape rest else b :: unescape (c :: rest)

theorem unescape_plain (hb : b ≠ Ascii.backslash) : unescape (b :: bs) = b :: unescape bs := by
  cases bs with
  | nil => simp [unescape, hb]
  | cons c bs => rw [unescape, if_neg hb]

theorem unescape_escaped (b : UInt8) (bs : Bytes) :
    unescape (Ascii.backslash :: b :: bs) = b :: unescape bs := by
  rw [unescape, if_pos rfl]

theorem inside_nil : Inside [] :=
  ⟨by simp, fun _ _ h => by simp at h, by simp [trailing]⟩

theorem inside_plain (hq : b ≠ Ascii.quote) (hs : b ≠ Ascii.backslash) (hl : b ≠ Ascii.lineFeed) :
    Inside (b :: body) ↔ Inside body := by
  constructor
  · rintro ⟨hline, hescaped, hcloses⟩
    refine ⟨fun h => hline (List.mem_cons_of_mem b h), fun head tail h => ?_, ?_⟩
    · rw [← trailing_cons_of_ne hs]
      exact hescaped (b :: head) tail (by rw [h, List.cons_append])
    · rwa [trailing_cons_of_ne hs] at hcloses
  · rintro ⟨hline, hescaped, hcloses⟩
    refine ⟨List.not_mem_cons_of_ne_of_not_mem hl.symm hline, fun head tail h => ?_, ?_⟩
    · cases head with
      | nil => exact absurd (List.cons.inj h).1 hq
      | cons c head =>
        obtain ⟨rfl, hbody⟩ := List.cons.inj h
        rw [trailing_cons_of_ne hs]
        exact hescaped head tail hbody
    · rwa [trailing_cons_of_ne hs]

theorem inside_escaped (hl : b ≠ Ascii.lineFeed) :
    Inside (Ascii.backslash :: b :: body) ↔ Inside body := by
  have hodd (bs : Bytes) : Odd (trailing (Ascii.backslash :: b :: bs)) ↔ Odd (trailing bs) := by
    rw [← Nat.not_even_iff_odd, ← Nat.not_even_iff_odd, even_trailing_pair]
  constructor
  · rintro ⟨hline, hescaped, hcloses⟩
    refine ⟨fun h => hline (by simp [h]), fun head tail h => ?_,
      (even_trailing_pair b body).1 hcloses⟩
    rw [← hodd]
    exact hescaped (Ascii.backslash :: b :: head) tail (by rw [h]; rfl)
  · rintro ⟨hline, hescaped, hcloses⟩
    have hne : Ascii.lineFeed ≠ Ascii.backslash := by decide
    refine ⟨by simp [hne, hl.symm, hline], fun head tail h => ?_,
      (even_trailing_pair b body).2 hcloses⟩
    match head with
    | [] => exact absurd (List.cons.inj h).1 (by decide)
    | [c] =>
      obtain ⟨rfl, -⟩ := List.cons.inj h
      decide
    | c :: d :: head =>
      obtain ⟨rfl, hpair⟩ := List.cons.inj h
      obtain ⟨rfl, hbody⟩ := List.cons.inj hpair
      exact (hodd head).2 (hescaped head tail hbody)

theorem inside_of_quoted (h : Quoted body text) : Inside body ∧ unescape body = text := by
  induction h with
  | nil => exact ⟨inside_nil, rfl⟩
  | plain hq hs hl _ ih =>
    exact ⟨(inside_plain hq hs hl).2 ih.1, by rw [unescape_plain hs, ih.2]⟩
  | escaped hl _ ih => exact ⟨(inside_escaped hl).2 ih.1, by rw [unescape_escaped, ih.2]⟩

theorem Inside.head_ne (h : Inside (b :: body)) : b ≠ Ascii.quote ∧ b ≠ Ascii.lineFeed := by
  refine ⟨?_, fun hb => h.inLine (by simp [hb])⟩
  rintro rfl
  exact absurd (h.escaped [] body rfl) (by decide)

theorem Inside.quoted : ∀ {body : Bytes}, Inside body → Quoted body (unescape body)
  | [], _ => .nil
  | [b], h => by
    have hs : b ≠ Ascii.backslash := by
      rintro rfl
      exact absurd h.closes (by decide)
    rw [unescape_plain hs]
    exact .plain h.head_ne.1 hs h.head_ne.2 .nil
  | b :: c :: body, h => by
    by_cases hs : b = Ascii.backslash
    · subst hs
      have hc : c ≠ Ascii.lineFeed := fun hc => h.inLine (by simp [hc])
      rw [unescape_escaped]
      exact .escaped hc ((inside_escaped hc).1 h).quoted
    · obtain ⟨hq, hl⟩ := h.head_ne
      rw [unescape_plain hs]
      exact .plain hq hs hl ((inside_plain hq hs hl).1 h).quoted

theorem quoted_iff : Quoted body text ↔ Inside body ∧ unescape body = text :=
  ⟨inside_of_quoted, fun ⟨h, ht⟩ => ht ▸ h.quoted⟩

/-- If a quote in the line is behind an even number of backslashes, there is a first such quote. -/
theorem exists_inside (head tail : Bytes) (hline : Ascii.lineFeed ∉ head)
    (heven : Even (trailing head)) :
    ∃ body rest, head ++ Ascii.quote :: tail = body ++ Ascii.quote :: rest ∧ Inside body := by
  generalize hn : head.length = n
  induction n using Nat.strongRecOn generalizing head tail with
  | ind n ih =>
    by_cases hfirst : ∀ head' tail', head = head' ++ Ascii.quote :: tail' → Odd (trailing head')
    · exact ⟨head, tail, rfl, hline, hfirst, heven⟩
    · push Not at hfirst
      obtain ⟨head', tail', rfl, hodd⟩ := hfirst
      have hshort : head'.length < n := by
        rw [← hn, List.length_append, List.length_cons]
        omega
      obtain ⟨body, rest, h, hbody⟩ := ih head'.length hshort head' (tail' ++ Ascii.quote :: tail)
        (fun h => hline (List.mem_append_left _ h)) (Nat.not_odd_iff_even.1 hodd) rfl
      exact ⟨body, rest, by rw [← h, List.append_assoc, List.cons_append], hbody⟩

end Grammar

/-! ## Literals of lexers -/

namespace Lexer

open Grammar (Inside Munch trailing unescape)
open Position (past)
open Spelling (escape)

variable {ρ : Type} [Reader ρ] {r : ρ} {path : Path} {before now : Bytes} {ts : List Token}

/-- A string, anywhere in a source, ends at the first quote behind an even number of backslashes and
means what stands before it without the backslashes that escape. If a line feed or the end comes
before such a quote, the string is not terminated. So any text without a line feed is read back from
its escaped form. -/
theorem literal_decoded_exactly (hr : Reader.Holds r path (before ++ Ascii.quote :: now))
    (hat : Scan.ComesTo path before (Ascii.quote :: now) ts) :
    (∀ body rest, now = body ++ Ascii.quote :: rest → Inside body →
      Emits r path before ts (Ascii.quote :: body ++ [Ascii.quote]) rest
        (.ofText .literal (unescape body) path (past before).line)) ∧
    (FailsAt r path before ts .unterminatedLiteral ↔
      ∀ head tail, now = head ++ Ascii.quote :: tail → Ascii.lineFeed ∉ head →
        Odd (trailing head)) ∧
    (FailsAt r path before ts .unterminatedLiteral ∨
      ∃ body rest, now = body ++ Ascii.quote :: rest ∧ Inside body) ∧
    ∀ text rest, Ascii.lineFeed ∉ text → now = escape text ++ Ascii.quote :: rest →
      Emits r path before ts (Ascii.quote :: escape text ++ [Ascii.quote]) rest
        (.ofText .literal text path (past before).line) := by
  have hemits : ∀ body rest, now = body ++ Ascii.quote :: rest → Inside body →
      Emits r path before ts (Ascii.quote :: body ++ [Ascii.quote]) rest
        (.ofText .literal (unescape body) path (past before).line) := by
    rintro body rest rfl hbody
    have hsplit : Ascii.quote :: (body ++ Ascii.quote :: rest) =
        Ascii.quote :: body ++ [Ascii.quote] ++ rest := by simp
    rw [hsplit] at hr hat
    exact emits_of_munch hr hat (.literal (Grammar.quoted_iff.2 ⟨hbody, rfl⟩))
  have hfails : (∀ body rest, now = body ++ Ascii.quote :: rest → ¬ Inside body) →
      FailsAt r path before ts .unterminatedLiteral := by
    intro hnone
    obtain ⟨body, text, rest, rfl, h⟩ | ⟨body, rest, rfl, h, hrest⟩ := Grammar.closed_or_cut now
    · exact absurd (Grammar.quoted_iff.1 h).1 (hnone body rest rfl)
    · rw [← List.cons_append] at hr hat
      exact failsAt_of_munch hr hat (.unterminated h hrest)
  refine ⟨hemits, ⟨fun h head tail hnow hline => ?_, fun hodd => hfails ?_⟩, ?_, ?_⟩
  · by_contra hodd
    obtain ⟨body, rest, hsplit, hbody⟩ :=
      Grammar.exists_inside head tail hline (Nat.not_odd_iff_even.1 hodd)
    exact (hemits body rest (hnow.trans hsplit) hbody).not_failsAt h
  · intro body rest hnow hbody
    exact Nat.not_even_iff_odd.2 (hodd body rest hnow hbody.inLine) hbody.closes
  · by_cases hsome : ∃ body rest, now = body ++ Ascii.quote :: rest ∧ Inside body
    · exact .inr hsome
    · push Not at hsome
      exact .inl (hfails hsome)
  · intro text rest htext hnow
    obtain ⟨hinside, hunescape⟩ := Grammar.quoted_iff.1 (Spelling.quoted_escape htext)
    have h := hemits (escape text) rest hnow hinside
    rwa [hunescape] at h

/-- An escaped quote behind an escaped backslash, and a backslash that escapes nothing special. -/
theorem literal_decoded_exactly_backslashes :
    let path : Path := ⟨"x.s"⟩
    let body := Ascii.bytes "\\\\\\\"\\n"
    let now := body ++ Ascii.quote :: Ascii.bytes "X\""
    Inside body ∧ Emits (MemoryReader.ofBytes (Ascii.quote :: now) path) path [] []
      (Ascii.quote :: body ++ [Ascii.quote]) (Ascii.bytes "X\"")
      (.ofText .literal (Ascii.bytes "\\\"n") path 1) := by
  intro path body now
  have hquoted : Grammar.Quoted body (Ascii.bytes "\\\"n") :=
    .escaped (by decide) (.escaped (by decide) (.escaped (by decide) .nil))
  obtain ⟨hinside, htext⟩ := Grammar.quoted_iff.1 hquoted
  have hemits := (literal_decoded_exactly (MemoryReader.holds (Ascii.quote :: now) path)
    (Scan.comesTo_start path _)).1 body _ rfl hinside
  rw [htext] at hemits
  exact ⟨hinside, hemits⟩

/-- The backslash before the line feed does not carry the string over. -/
example : (Lexer.ofReader (MemoryReader.ofBytes (Ascii.bytes "\"\\\n\"") ⟨"x.s"⟩)).2 = [] := by
  decide +kernel

end Lexer

end Asm6502
