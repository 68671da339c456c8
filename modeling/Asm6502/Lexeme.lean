import Asm6502.Scalar
import Asm6502.Stream
import Asm6502.Token

/-!
# Lexemes

The first byte of a lexeme decides what it is, and every lexeme is as long as it can be:

- a NUL or blank by itself, and a comment from `;` up to the line feed, make no token;
- a word is a label if a colon follows, which then belongs to it, else a mnemonic, a register or
  an identifier;
- a scalar is a run of letters and digits, after `$` in hexadecimal, after `%` in binary;
- a directive is a run of letters after a dot;
- a string runs to the next quote that no backslash escapes, within its line;
- every other ASCII byte is a sign by itself, and a byte above ASCII starts nothing.
-/

namespace Asm6502

/-- What a lexeme means. -/
inductive Meaning where
  | nothing
  | token (t : Token)
  | fault (cause : Cause)
  deriving DecidableEq, Repr

/-- One lexeme of a source. -/
structure Lexeme where
  meaning : Meaning
  /-- What follows the lexeme. -/
  rest : List Mark
  /-- Whether the end of the source was met in looking for the end of the lexeme. -/
  atEnd : Bool
  deriving DecidableEq, Repr

namespace Lexeme

/-! ## Runs and strings -/

/-- The longest run of bytes in a class. -/
def run (p : UInt8 → Bool) (marks : List Mark) : Bytes :=
  (marks.takeWhile fun m => p m.byte).map Mark.byte

/-- What follows the longest run of bytes in a class. -/
def afterRun (p : UInt8 → Bool) (marks : List Mark) : List Mark :=
  marks.dropWhile fun m => p m.byte

theorem afterRun_length_le (p : UInt8 → Bool) (marks : List Mark) :
    (afterRun p marks).length ≤ marks.length :=
  (List.dropWhile_sublist _).length_le

/-- How a string ends. -/
inductive Closing where
  | closed (text : Bytes) (rest : List Mark)
  | cutByLine
  | cutByEnd
  deriving DecidableEq, Repr

/-- The same ending with one more byte in front of the text. -/
def Closing.cons (b : UInt8) : Closing → Closing
  | closed text rest => closed (b :: text) rest
  | cutByLine => cutByLine
  | cutByEnd => cutByEnd

/-- A string after its opening quote; `escaped` if the byte before is a backslash that counts. -/
def closing (escaped : Bool) : List Mark → Closing
  | [] => .cutByEnd
  | m :: rest =>
    if m.byte = Ascii.backslash then
      if escaped then (closing false rest).cons m.byte else closing true rest
    else if m.byte = Ascii.quote then
      if escaped then (closing false rest).cons m.byte else .closed [] rest
    else if m.byte = Ascii.lineFeed then .cutByLine
    else (closing false rest).cons m.byte

theorem Closing.cons_eq_closed {b : UInt8} {c : Closing} {text : Bytes} {rest : List Mark} :
    c.cons b = closed text rest ↔ ∃ tail, text = b :: tail ∧ c = closed tail rest := by
  constructor
  · intro h
    cases c with
    | closed tail after =>
      obtain ⟨rfl, rfl⟩ := Closing.closed.inj h
      exact ⟨tail, rfl, rfl⟩
    | cutByLine => cases h
    | cutByEnd => cases h
  · rintro ⟨tail, rfl, rfl⟩
    rfl

theorem length_lt_of_closing {escaped : Bool} {marks after : List Mark} {text : Bytes}
    (h : closing escaped marks = .closed text after) : after.length < marks.length := by
  induction marks generalizing escaped text with
  | nil => simp [closing] at h
  | cons m rest ih =>
    have key : ∀ {c e}, (closing e rest).cons c = .closed text after →
        after.length < (m :: rest).length := by
      intro c e h
      obtain ⟨tail, -, h⟩ := Closing.cons_eq_closed.1 h
      exact Nat.lt_succ_of_lt (ih h)
    simp only [closing] at h
    split at h
    · split at h
      · exact key h
      · exact Nat.lt_succ_of_lt (ih h)
    · split at h
      · split at h
        · exact key h
        · obtain ⟨-, rfl⟩ := Closing.closed.inj h
          exact Nat.lt_succ_self _
      · split at h
        · cases h
        · exact key h

/-! ## The lexeme at a mark -/

variable (source : Path) (m : Mark) (rest : List Mark)

/-- A lexeme that is complete whatever follows. -/
def complete (meaning : Meaning) (rest : List Mark) : Lexeme := ⟨meaning, rest, false⟩

/-- A lexeme that ends where `rest` starts, or at the end of the source. -/
def upTo (meaning : Meaning) (rest : List Mark) : Lexeme := ⟨meaning, rest, rest.isEmpty⟩

/-- The token of a word that is no label. -/
def wordToken (text : Bytes) (line : UInt32) : Token :=
  match (Keyword.lookup? text : Option Mnemonic), (Keyword.lookup? text : Option Register) with
  | some k, _ => .ofKeyword k source line
  | none, some k => .ofKeyword k source line
  | none, none => .ofText .identifier text source line

def word : Lexeme :=
  let text := m.byte :: run Ascii.isWordByte rest
  match afterRun Ascii.isWordByte rest with
  | c :: after =>
    if c.byte = Ascii.colon then complete (.token (.ofText .label text source m.pos.line)) after
    else upTo (.token (wordToken source text m.pos.line)) (c :: after)
  | [] => upTo (.token (wordToken source text m.pos.line)) []

/-- The meaning of digits in a radix; `sign` stands before them in messages. -/
def scalarMeaning (radix : Nat) (sign : String) (digits : Bytes) (line : UInt32) : Meaning :=
  match Scalar.read radix digits with
  | .ok value => .token (.ofScalar value source line)
  | .error .overflow => .fault (.scalarOverflow (sign ++ Utf8.decodeLossy digits))
  | .error .invalid => .fault (.invalidScalar (sign ++ Utf8.decodeLossy digits))

def decimal : Lexeme :=
  let digits := m.byte :: run Ascii.isAlphanumeric rest
  upTo (scalarMeaning source 10 "" digits m.pos.line) (afterRun Ascii.isAlphanumeric rest)

/-- A scalar after the sign of its radix. -/
def signed (radix : Nat) : Lexeme :=
  let sign := (Ascii.toChar m.byte).toString
  let digits := run Ascii.isAlphanumeric rest
  upTo (scalarMeaning source radix sign digits m.pos.line) (afterRun Ascii.isAlphanumeric rest)

def comment : Lexeme := upTo .nothing (afterRun (· != Ascii.lineFeed) rest)

/-- The meaning of a name after a dot. -/
def directiveMeaning (name : Bytes) (line : UInt32) : Meaning :=
  match (Keyword.lookup? name : Option Directive) with
  | some k => .token (.ofKeyword k source line)
  | none => .fault (.unsupportedDirective (Utf8.decodeLossy name))

def directive : Lexeme :=
  upTo (directiveMeaning source (run Ascii.isLetter rest) m.pos.line)
    (afterRun Ascii.isLetter rest)

def string : Lexeme :=
  match closing false rest with
  | .closed text after => complete (.token (.ofText .literal text source m.pos.line)) after
  | .cutByLine => complete (.fault .unterminatedLiteral) rest
  | .cutByEnd => upTo (.fault .unterminatedLiteral) []

/-- The meaning of a byte that stands by itself. -/
def signMeaning : Meaning :=
  if Ascii.isAscii m.byte then
    match (Keyword.lookup? [m.byte] : Option Punctuation) with
    | some k => .token (.ofKeyword k source m.pos.line)
    | none => .fault (.unsupportedSymbol m.byte)
  else .fault (.invalidCharacter m.byte)

/-- The lexeme that starts at `m`. -/
def read : Lexeme :=
  match ByteClass.of m.byte with
  | .nul | .blank => complete .nothing rest
  | .letter => word source m rest
  | .digit => decimal source m rest
  | .symbol =>
    if m.byte = Ascii.semicolon then comment rest
    else if m.byte = Ascii.dot then directive source m rest
    else if m.byte = Ascii.underscore then word source m rest
    else if m.byte = Ascii.quote then string source m rest
    else if m.byte = Ascii.dollar then signed source m rest 16
    else if m.byte = Ascii.percent then signed source m rest 2
    else complete (signMeaning source m) rest

theorem word_rest_length_le : (word source m rest).rest.length ≤ rest.length := by
  have h := afterRun_length_le Ascii.isWordByte rest
  unfold word
  split
  · rename_i c after hc
    rw [hc] at h
    simp only [List.length_cons] at h
    split
    · exact Nat.le_of_succ_le h
    · exact h
  · exact Nat.zero_le _

theorem string_rest_length_le : (string source m rest).rest.length ≤ rest.length := by
  unfold string
  split
  · rename_i text after h
    exact Nat.le_of_lt (length_lt_of_closing h)
  · exact Nat.le_refl _
  · exact Nat.zero_le _

/-- A lexeme takes at least its first byte. -/
theorem read_rest_length_le : (read source m rest).rest.length ≤ rest.length := by
  unfold read
  split
  · exact Nat.le_refl _
  · exact Nat.le_refl _
  · exact word_rest_length_le source m rest
  · exact afterRun_length_le _ rest
  · split
    · exact afterRun_length_le (· != Ascii.lineFeed) rest
    split
    · exact afterRun_length_le _ rest
    split
    · exact word_rest_length_le source m rest
    split
    · exact string_rest_length_le source m rest
    split
    · exact afterRun_length_le _ rest
    split
    · exact afterRun_length_le _ rest
    · exact Nat.le_refl _

end Lexeme

end Asm6502
