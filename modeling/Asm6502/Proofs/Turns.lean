import Asm6502.Proofs.Continuation
import Asm6502.Proofs.Scanner

/-!
# What a turn does

A source that ends shows a scanner some marks and then fails (`Scanner.Ahead`). On any of them
(`Scanner.Faces`) each loop of a turn comes to an end, and with it the turn: it takes the lexeme
that starts there (`Scanner.Takes`), to its end or to that of the source.
-/

namespace Asm6502.Scanner

open Lexeme (Closing run afterRun closing upTo complete)

variable {ρ : Type} [Supply ρ] {all marks rest : List Mark} {m n : Mark} {e : Error}
  {last : Stream ρ} {s : Scanner ρ} {source : Path}

/-- The stream shows some marks, the current one first. Then a move fails with `e` and leaves it as
`last`. -/
inductive Ahead (e : Error) (last : Stream ρ) : Stream ρ → List Mark → Prop where
  | final {s r} : Supply.readByte s.reader = (.error e, r) → { s with reader := r } = last →
      Ahead e last s [⟨s.byte, s.pos⟩]
  | more {s b r marks} : Supply.readByte s.reader = (.ok b, r) →
      Ahead e last ⟨r, b, s.pos.after s.byte⟩ marks → Ahead e last s (⟨s.byte, s.pos⟩ :: marks)

/-- Of the marks `all` of a source the scanner faces the last ones, the current one first. -/
structure Faces (all : List Mark) (e : Error) (last : Stream ρ) (s : Scanner ρ)
    (marks : List Mark) : Prop where
  ahead : Ahead e last s.toStream marks
  drop_eq : all.drop s.offset = marks

structure Ended (all : List Mark) (last : Stream ρ) (s : Scanner ρ) : Prop where
  stream : s.toStream = last
  offset : s.offset + 1 = all.length

/-! ## Moves -/

theorem Ahead.ne_nil {t : Stream ρ} (h : Ahead e last t marks) : marks ≠ [] := by
  cases h <;> simp

theorem Faces.length (h : Faces all e last s marks) : s.offset + marks.length = all.length := by
  have hpos := List.length_pos_iff.2 h.ahead.ne_nil
  have hlength := congrArg List.length h.drop_eq
  rw [List.length_drop] at hlength
  omega

theorem Faces.mark (h : Faces all e last s (m :: rest)) : m = ⟨s.byte, s.pos⟩ := by
  cases h.ahead <;> rfl

theorem Faces.getElem? (h : Faces all e last s (m :: rest)) : all[s.offset]? = some m := by
  rw [← List.head?_drop, h.drop_eq]
  rfl

theorem Faces.advance_more (h : Faces all e last s (m :: n :: rest)) :
    ∃ s', s.advance = (.ok true, s') ∧ Faces all e last s' (n :: rest) ∧
      s'.offset = s.offset + 1 := by
  obtain ⟨hahead, hdrop⟩ := h
  cases hahead with
  | @more _ b r _ hread hahead =>
    refine ⟨_, by rw [advance, hread], ⟨hahead, ?_⟩, rfl⟩
    rw [← List.tail_drop, hdrop]
    rfl

theorem Faces.advance_final (h : Faces all e last s [m]) :
    ∃ s', s.advance = (endedBy e false, s') ∧ Ended all last s' := by
  have hlength := h.length
  cases h.ahead with
  | @final _ r hread hlast => exact ⟨{ s with reader := r }, by rw [advance, hread], hlast, hlength⟩
  | more _ hahead => exact absurd rfl hahead.ne_nil

/-- The failure that cuts a source short, if reading it ended with `e`. -/
def cut? (e : Error) : Option Error := if e.code = .endOfFile then none else some e

theorem endedBy_cases (e : Error) :
    (cut? e = none ∧ ∀ {α : Type} (a : α), endedBy e a = .ok a) ∨
      cut? e = some e ∧ ∀ {α : Type} (a : α), endedBy e a = .error e := by
  by_cases h : e.code = .endOfFile
  · exact .inl ⟨if_pos h, fun a => if_pos h⟩
  · exact .inr ⟨if_neg h, fun a => if_neg h⟩

/-! ## Loops within a turn -/

theorem Faces.readWhile (h : Faces all e last s (m :: rest)) (p : UInt8 → Bool) (text : Bytes) :
    (afterRun p rest = [] ∧ ∃ s', Ended all last s' ∧
      s.readWhile p text = some (endedBy e (text ++ run p rest, false), s')) ∨
    ∃ s', Faces all e last s' (afterRun p rest) ∧
      s.readWhile p text = some (.ok (text ++ run p rest, true), s') := by
  induction rest generalizing s m text with
  | nil =>
    obtain ⟨s', hadvance, hs'⟩ := h.advance_final
    refine .inl ⟨rfl, s', hs', ?_⟩
    rw [Scanner.readWhile, hadvance]
    rcases endedBy_cases e with ⟨-, hend⟩ | ⟨-, hend⟩
    · simp [hend, run]
    · simp [hend]
  | cons n rest ih =>
    obtain ⟨s', hadvance, hs', -⟩ := h.advance_more
    obtain rfl := hs'.mark
    rw [Scanner.readWhile, hadvance]
    by_cases hp : p s'.byte = true
    · simpa [hp, run, afterRun] using ih hs' (text ++ [s'.byte])
    · exact .inr ⟨s', by simpa [hp, run, afterRun] using hs', by simp [hp, run]⟩

/-! ## Turns -/

/-- The lexeme of a string that was opened at `pos`, by how it goes on behind `text`. -/
def stringLexeme (source : Path) (pos : Position) (text : Bytes) (rest : List Mark) :
    Closing → Lexeme
  | .closed more after => complete (.token (.ofText .literal (text ++ more) source pos.line)) after
  | .cutByLine => complete (.fault .unterminatedLiteral) rest
  | .cutByEnd => upTo (.fault .unterminatedLiteral) []

/-- A turn from `s` to `s'` has taken a lexeme and has come to `outcome`. -/
inductive Takes (all : List Mark) (e : Error) (last : Stream ρ) (source : Path) (s : Scanner ρ)
    (x : Lexeme) : Outcome → Scanner ρ → Prop where
  /-- The source ended before the lexeme was sure to have ended. -/
  | ended {s'} : x.atEnd = true → Ended all last s' →
      Takes all e last source s x
        (endedBy e .exhausted >>= settle source s.pos x.meaning) s'
  /-- The scanner is on the byte behind the lexeme. -/
  | hold {s'} : x.atEnd = false → Faces all e last s' x.rest →
      Takes all e last source s x (settle source s.pos x.meaning .hold) s'
  /-- The scanner is on the last byte of the lexeme. -/
  | advance {s' m} : x.atEnd = false → Faces all e last s' (m :: x.rest) →
      Takes all e last source s x (settle source s.pos x.meaning .advance) s'
  | fault {s' cause} : x.atEnd = false → x.meaning = .fault cause → s.offset ≤ s'.offset →
      s'.offset < all.length →
      Takes all e last source s x (settle source s.pos x.meaning .hold) s'

theorem Faces.readRun (h : Faces all e last s (m :: rest)) (source : Path) (p : UInt8 → Bool)
    (text : Bytes) (meaning : Bytes → Meaning) : ∃ outcome s',
      s.readRun source p text meaning = some (outcome, s') ∧
        Takes all e last source s (upTo (meaning (text ++ run p rest)) (afterRun p rest))
          outcome s' := by
  rcases h.readWhile p text with ⟨hafter, s', hs', hread⟩ | ⟨s', hs', hread⟩
  · refine ⟨_, s', ?_, .ended (Lexeme.upTo_atEnd.2 hafter) hs'⟩
    rw [Scanner.readRun, hread]
    rcases endedBy_cases e with ⟨-, hend⟩ | ⟨-, hend⟩ <;> simp only [hend] <;> rfl
  · refine ⟨_, s', ?_, .hold (Bool.eq_false_iff.2 fun hend => ?_) hs'⟩
    · rw [Scanner.readRun, hread]
      rfl
    · exact hs'.ahead.ne_nil (Lexeme.upTo_atEnd.1 hend)

theorem Faces.readWord (h : Faces all e last s (m :: rest)) (source : Path) : ∃ outcome s',
    s.readWord source = some (outcome, s') ∧
      Takes all e last source s (Lexeme.word source m rest) outcome s' := by
  obtain rfl := h.mark
  rcases h.readWhile Ascii.isWordByte [s.byte] with ⟨hafter, s', hs', hread⟩ | ⟨s', hs', hread⟩
  · refine ⟨_, s', ?_, .ended (Lexeme.word_atEnd.2 hafter) hs'⟩
    rw [Scanner.readWord, hread, Lexeme.word_of_nil hafter]
    rcases endedBy_cases e with ⟨-, hend⟩ | ⟨-, hend⟩ <;> simp only [hend] <;> rfl
  · obtain ⟨c, after, hafter⟩ := List.exists_cons_of_ne_nil hs'.ahead.ne_nil
    rw [hafter] at hs'
    obtain rfl := hs'.mark
    have hatEnd : (Lexeme.word source ⟨s.byte, s.pos⟩ rest).atEnd = false :=
      Bool.eq_false_iff.2 fun hend => by simp [Lexeme.word_atEnd.1 hend] at hafter
    by_cases hc : s'.byte = Ascii.colon
    · have hrest : (Lexeme.word source ⟨s.byte, s.pos⟩ rest).rest = after := by
        simp [Lexeme.word, hafter, hc, complete]
      refine ⟨_, s', ?_, .advance hatEnd (hrest ▸ hs')⟩
      rw [Scanner.readWord, hread]
      simp [Lexeme.word, hafter, hc, complete]
    · refine ⟨_, s', ?_, .hold hatEnd ?_⟩
      · rw [Scanner.readWord, hread]
        simp [Lexeme.word, hafter, hc, upTo, Step.afterRun]
      · simpa [Lexeme.word, hafter, hc, upTo] using hs'

theorem stringLexeme_cons (b : UInt8) (c : Closing) (text : Bytes) (pos : Position) :
    stringLexeme source pos text marks (c.cons b) =
      stringLexeme source pos (text ++ [b]) marks c := by
  cases c <;> simp [Closing.cons, stringLexeme]

theorem Faces.readString {first : Scanner ρ} (h : Faces all e last s (m :: rest))
    (hfirst : first.offset ≤ s.offset) (source : Path) (escaped : Bool) (text : Bytes)
    (marks : List Mark) : ∃ outcome s',
      s.readString source first.pos escaped text = some (outcome, s') ∧
        Takes all e last source first
          (stringLexeme source first.pos text marks (closing escaped rest)) outcome s' := by
  induction rest generalizing s m escaped text with
  | nil =>
    obtain ⟨s', hadvance, hs'⟩ := h.advance_final
    refine ⟨_, s', ?_, .ended rfl hs'⟩
    rw [Scanner.readString, hadvance]
    rcases endedBy_cases e with ⟨-, hend⟩ | ⟨-, hend⟩ <;> simp only [hend] <;> rfl
  | cons n rest ih =>
    obtain ⟨s', hadvance, hs', hoffset⟩ := h.advance_more
    obtain rfl := hs'.mark
    have hfirst' : first.offset ≤ s'.offset := by omega
    have hlt : s'.offset < all.length := (List.getElem?_eq_some_iff.1 hs'.getElem?).1
    rw [Scanner.readString, hadvance]
    simp only [closing]
    split_ifs with hb he hq he hl
    · rw [stringLexeme_cons]
      exact ih hs' hfirst' false _
    · exact ih hs' hfirst' true text
    · rw [stringLexeme_cons]
      exact ih hs' hfirst' false _
    · refine ⟨_, s', ?_, .advance rfl hs'⟩
      simp [stringLexeme, complete]
    · exact ⟨_, s', rfl, .fault rfl rfl hfirst' hlt⟩
    · rw [stringLexeme_cons]
      exact ih hs' hfirst' false _

theorem string_eq (m : Mark) (rest : List Mark) : Lexeme.string source m rest =
    stringLexeme source m.pos [] rest (closing false rest) := by
  unfold Lexeme.string
  cases closing false rest <;> rfl

/-- A turn takes the lexeme that starts at its mark. -/
theorem Faces.dispatch (h : Faces all e last s (m :: rest)) (source : Path) : ∃ outcome s',
    s.dispatch source = some (outcome, s') ∧
      Takes all e last source s (Lexeme.read source m rest) outcome s' := by
  have hsingle (meaning : Meaning) : ∃ outcome s',
      some (settle source s.pos meaning .advance, s) = some (outcome, s') ∧
        Takes all e last source s (complete meaning rest) outcome s' :=
    ⟨_, s, rfl, .advance rfl h⟩
  obtain rfl := h.mark
  unfold Scanner.dispatch Lexeme.read
  dsimp only
  cases ByteClass.of s.byte with
  | nul => exact hsingle .nothing
  | blank => exact hsingle .nothing
  | letter => exact h.readWord source
  | digit => exact h.readRun source Ascii.isAlphanumeric [s.byte] _
  | symbol =>
    dsimp only
    split_ifs
    · exact h.readRun source (· != Ascii.lineFeed) [] fun _ => .nothing
    · exact h.readRun source Ascii.isLetter [] _
    · exact h.readWord source
    · rw [string_eq]
      exact h.readString (Nat.le_refl _) source false [] rest
    · exact h.readRun source Ascii.isAlphanumeric [] _
    · exact h.readRun source Ascii.isAlphanumeric [] _
    · exact hsingle (Lexeme.signMeaning source ⟨s.byte, s.pos⟩)

end Asm6502.Scanner
