import Asm6502.Lexeme
import Asm6502.Proofs.Keywords
import Asm6502.Proofs.Positions

/-!
# Grammar

The language as rules on plain bytes, apart from streams, marks and scanners.

- `Item` is what a token says, wherever it stands.
- `Munch lex rest sense`: in front of `rest`, the bytes `lex` are one lexeme and mean `sense`. The
  rules speak of `rest` only to say that the lexeme is as long as it can be (`Ends`).
- `Derives source before now scan`: lexeme by lexeme, the bytes `now` behind `before` come to
  `scan`. Each token has the line and each fault the position that counting `before` gives.
-/

namespace Asm6502

/-- What a token says, apart from its source and line. -/
inductive Item where
  | directive (k : Directive)
  | instruction (k : Mnemonic)
  | operand (k : Register)
  | symbol (k : Punctuation)
  | identifier (name : Bytes)
  | label (name : Bytes)
  | literal (text : Bytes)
  | scalar (value : UInt16)
  deriving DecidableEq, Repr

/-- The token of an item on a line of a source. -/
def Item.token (source : Path) (line : UInt32) : Item → Token
  | directive k => .ofKeyword k source line
  | instruction k => .ofKeyword k source line
  | operand k => .ofKeyword k source line
  | symbol k => .ofKeyword k source line
  | identifier name => .ofText .identifier name source line
  | label name => .ofText .label name source line
  | literal text => .ofText .literal text source line
  | scalar value => .ofScalar value source line

/-- What a lexeme means, apart from its place. -/
inductive Sense where
  | blank
  | item (i : Item)
  | fault (cause : Cause)
  deriving DecidableEq, Repr

/-- ASCII bytes as a text. -/
def Ascii.text (bs : Bytes) : String := String.ofList (bs.map Ascii.toChar)

namespace Grammar

open Keyword (spelling)

/-! ## Parts of lexemes -/

/-- What follows does not go on with a byte of the class. -/
def Ends (p : UInt8 → Bool) (rest : Bytes) : Prop := ∀ b, rest.head? = some b → p b = false

/-- A letter or underscore, followed by letters, digits and underscores. -/
def IsName : Bytes → Prop
  | [] => False
  | b :: bs =>
    (Ascii.isLetter b = true ∨ b = Ascii.underscore) ∧ ∀ c ∈ bs, Ascii.isWordByte c = true

/-- A byte that is a digit below the radix. -/
def IsDigit (radix : Nat) (b : UInt8) : Prop := (Scalar.digit? radix b).isSome = true

/-- The number that some digits stand for behind the number `n`. -/
def valueFrom (radix n : Nat) (digits : Bytes) : Nat :=
  digits.foldl (fun n b => n * radix + (Scalar.digit? radix b).getD 0) n

/-- The number that some digits stand for. -/
def value (radix : Nat) (digits : Bytes) : Nat := valueFrom radix 0 digits

/-- What a run of letters and digits means in a radix. Of a bad digit and a value beyond 16 bits,
the one further left decides. -/
inductive Numeral (radix : Nat) (sign : String) : Bytes → Sense → Prop where
  | value {digits} : digits ≠ [] → (∀ b ∈ digits, IsDigit radix b) → value radix digits < 0x10000 →
      Numeral radix sign digits (.item (.scalar (UInt16.ofNat (value radix digits))))
  | empty : Numeral radix sign [] (.fault (.invalidScalar sign))
  | invalid {digits b more} : (∀ b ∈ digits, IsDigit radix b) → value radix digits < 0x10000 →
      ¬ IsDigit radix b → Numeral radix sign (digits ++ b :: more)
        (.fault (.invalidScalar (sign ++ Ascii.text (digits ++ b :: more))))
  | overflow {digits more} : (∀ b ∈ digits, IsDigit radix b) → 0x10000 ≤ value radix digits →
      Numeral radix sign (digits ++ more)
        (.fault (.scalarOverflow (sign ++ Ascii.text (digits ++ more))))

/-- What stands between quotes, and the text that it gives: a backslash is left out and takes the
meaning of the byte after it away. A line feed never belongs to it. -/
inductive Quoted : Bytes → Bytes → Prop where
  | nil : Quoted [] []
  | plain {b body text} : b ≠ Ascii.quote → b ≠ Ascii.backslash → b ≠ Ascii.lineFeed →
      Quoted body text → Quoted (b :: body) (b :: text)
  | escaped {b body text} : b ≠ Ascii.lineFeed → Quoted body text →
      Quoted (Ascii.backslash :: b :: body) (b :: text)

/-- What may stand behind an opening quote without closing it. It may end in a backslash. -/
def Unclosed (body : Bytes) : Prop :=
  (∃ text, Quoted body text) ∨ ∃ head text, body = head ++ [Ascii.backslash] ∧ Quoted head text

/-- An ASCII byte that starts no longer lexeme. -/
def IsSign (b : UInt8) : Prop :=
  ByteClass.of b = .symbol ∧ Ascii.isAscii b = true ∧ b ≠ Ascii.semicolon ∧ b ≠ Ascii.dot ∧
    b ≠ Ascii.underscore ∧ b ≠ Ascii.quote ∧ b ≠ Ascii.dollar ∧ b ≠ Ascii.percent

/-! ## Lexemes -/

inductive Munch : Bytes → Bytes → Sense → Prop where
  | skip {b rest} : b = Ascii.nul ∨ Ascii.isBlank b = true → Munch [b] rest .blank
  | comment {text rest} : Ascii.lineFeed ∉ text → Ends (· != Ascii.lineFeed) rest →
      Munch (Ascii.semicolon :: text) rest .blank
  | label {name rest} : IsName name → Munch (name ++ [Ascii.colon]) rest (.item (.label name))
  | instruction {k rest} : Ends Ascii.isWordByte rest → Ends (· == Ascii.colon) rest →
      Munch (spelling k) rest (.item (.instruction k))
  | operand {k rest} : Ends Ascii.isWordByte rest → Ends (· == Ascii.colon) rest →
      Munch (spelling k) rest (.item (.operand k))
  | identifier {name rest} : IsName name → (∀ k : Mnemonic, name ≠ spelling k) →
      (∀ k : Register, name ≠ spelling k) → Ends Ascii.isWordByte rest →
      Ends (· == Ascii.colon) rest → Munch name rest (.item (.identifier name))
  | decimal {b run rest sense} : Ascii.isDigit b = true →
      (∀ c ∈ run, Ascii.isAlphanumeric c = true) → Ends Ascii.isAlphanumeric rest →
      Numeral 10 "" (b :: run) sense → Munch (b :: run) rest sense
  | hexadecimal {run rest sense} : (∀ c ∈ run, Ascii.isAlphanumeric c = true) →
      Ends Ascii.isAlphanumeric rest → Numeral 16 "$" run sense →
      Munch (Ascii.dollar :: run) rest sense
  | binary {run rest sense} : (∀ c ∈ run, Ascii.isAlphanumeric c = true) →
      Ends Ascii.isAlphanumeric rest → Numeral 2 "%" run sense →
      Munch (Ascii.percent :: run) rest sense
  | directive {k rest} : Ends Ascii.isLetter rest →
      Munch (Ascii.dot :: spelling k) rest (.item (.directive k))
  | unsupportedDirective {name rest} : (∀ c ∈ name, Ascii.isLetter c = true) →
      Ends Ascii.isLetter rest → (∀ k : Directive, name ≠ spelling k) →
      Munch (Ascii.dot :: name) rest (.fault (.unsupportedDirective (Ascii.text name)))
  | literal {body text rest} : Quoted body text →
      Munch (Ascii.quote :: body ++ [Ascii.quote]) rest (.item (.literal text))
  | unterminated {body rest} : Unclosed body → Ends (· != Ascii.lineFeed) rest →
      Munch (Ascii.quote :: body) rest (.fault .unterminatedLiteral)
  | symbol {k rest} : Munch (spelling k) rest (.item (.symbol k))
  | unsupportedSymbol {b rest} : IsSign b → (∀ k : Punctuation, [b] ≠ spelling k) →
      Munch [b] rest (.fault (.unsupportedSymbol b))
  | invalidCharacter {b rest} : Ascii.isAscii b = false →
      Munch [b] rest (.fault (.invalidCharacter b))

/-! ## Sources -/

/-- What the bytes `now` come to behind the bytes `before`. -/
inductive Derives (source : Path) : Bytes → Bytes → Scan → Prop where
  | done {before} : Derives source before [] ⟨[], none⟩
  | blank {before lex rest scan} : Munch lex rest .blank →
      Derives source (before ++ lex) rest scan → Derives source before (lex ++ rest) scan
  | item {before lex rest i scan} : Munch lex rest (.item i) →
      Derives source (before ++ lex) rest scan → Derives source before (lex ++ rest)
        (scan.cons (i.token source (Position.past before).line))
  | fault {before lex rest cause} : Munch lex rest (.fault cause) →
      Derives source before (lex ++ rest)
        ⟨[], some ((Error.ofCause cause).locate source (Position.past before))⟩

end Grammar

end Asm6502
