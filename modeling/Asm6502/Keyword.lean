import Asm6502.Ascii

/-!
# Keywords

The fixed names of the language form four tables: directives, the mnemonics of the 6502, the
registers that an operand may name, and punctuation. The number of a keyword is its place in its
table. Look-up is exact: letter case counts and nothing is abbreviated.
-/

namespace Asm6502

/-- The kinds of tokens. -/
inductive TokenKind where
  | finish
  | directive
  | identifier
  | instruction
  | label
  | literal
  | operand
  | scalar
  | symbol
  deriving DecidableEq, Repr

def TokenKind.name : TokenKind → String
  | finish => "END"
  | directive => "DIRECTIVE"
  | identifier => "IDENTIFIER"
  | instruction => "INSTRUCTION"
  | label => "LABEL"
  | literal => "LITERAL"
  | operand => "OPERAND"
  | scalar => "SCALAR"
  | symbol => "SYMBOL"

/-- A table of names, and the kind of token that they make. -/
class Keyword (κ : Type) where
  kind : TokenKind
  table : List (κ × String)

namespace Keyword

variable {κ : Type} [Keyword κ]

/-- The number of a keyword. -/
def number [DecidableEq κ] (k : κ) : Nat := (table (κ := κ)).findIdx fun entry => entry.1 = k

/-- The keyword of a number. -/
def ofNumber? (n : Nat) : Option κ := (table (κ := κ))[n]?.map (·.1)

/-- The spelling of a keyword. -/
def name [DecidableEq κ] (k : κ) : String :=
  (((table (κ := κ)).find? fun entry => entry.1 = k).map (·.2)).getD ""

/-- The keyword that is spelled `text`. -/
def lookup? (text : Bytes) : Option κ :=
  ((table (κ := κ)).find? fun entry => Ascii.bytes entry.2 = text).map (·.1)

end Keyword

/-- An order to the assembler itself, written after a dot. -/
inductive Directive where
  | bank
  | byte
  | character
  | define
  | includeSource
  | includeBinary
  | mapper
  | mirror
  | origin
  | program
  | reserve
  | undefine
  | word
  deriving DecidableEq, Repr

instance : Keyword Directive where
  kind := .directive
  table := [
    (.bank, "BANK"), (.byte, "BYTE"), (.character, "CHR"), (.define, "DEF"),
    (.includeSource, "INC"), (.includeBinary, "INCB"), (.mapper, "MAP"), (.mirror, "MIR"),
    (.origin, "ORG"), (.program, "PRG"), (.reserve, "RESV"), (.undefine, "UNDEF"),
    (.word, "WORD")]

/-- An official instruction of the 6502. -/
inductive Mnemonic where
  | adc | and | asl | bcc | bcs | beq | bit | bmi | bne | bpl | brk | bvc | bvs | clc
  | cld | cli | clv | cmp | cpx | cpy | dec | dex | dey | eor | inc | inx | iny | jmp
  | jsr | lda | ldx | ldy | lsr | nop | ora | pha | php | pla | plp | rol | ror | rti
  | rts | sbc | sec | sed | sei | sta | stx | sty | tax | tay | tsx | txa | txs | tya
  deriving DecidableEq, Repr

instance : Keyword Mnemonic where
  kind := .instruction
  table := [
    (.adc, "ADC"), (.and, "AND"), (.asl, "ASL"), (.bcc, "BCC"), (.bcs, "BCS"), (.beq, "BEQ"),
    (.bit, "BIT"), (.bmi, "BMI"), (.bne, "BNE"), (.bpl, "BPL"), (.brk, "BRK"), (.bvc, "BVC"),
    (.bvs, "BVS"), (.clc, "CLC"), (.cld, "CLD"), (.cli, "CLI"), (.clv, "CLV"), (.cmp, "CMP"),
    (.cpx, "CPX"), (.cpy, "CPY"), (.dec, "DEC"), (.dex, "DEX"), (.dey, "DEY"), (.eor, "EOR"),
    (.inc, "INC"), (.inx, "INX"), (.iny, "INY"), (.jmp, "JMP"), (.jsr, "JSR"), (.lda, "LDA"),
    (.ldx, "LDX"), (.ldy, "LDY"), (.lsr, "LSR"), (.nop, "NOP"), (.ora, "ORA"), (.pha, "PHA"),
    (.php, "PHP"), (.pla, "PLA"), (.plp, "PLP"), (.rol, "ROL"), (.ror, "ROR"), (.rti, "RTI"),
    (.rts, "RTS"), (.sbc, "SBC"), (.sec, "SEC"), (.sed, "SED"), (.sei, "SEI"), (.sta, "STA"),
    (.stx, "STX"), (.sty, "STY"), (.tax, "TAX"), (.tay, "TAY"), (.tsx, "TSX"), (.txa, "TXA"),
    (.txs, "TXS"), (.tya, "TYA")]

/-- A register that an operand names. -/
inductive Register where
  | accumulator
  | indexX
  | indexY
  deriving DecidableEq, Repr

instance : Keyword Register where
  kind := .operand
  table := [(.accumulator, "A"), (.indexX, "X"), (.indexY, "Y")]

/-- A sign that stands by itself. -/
inductive Punctuation where
  | separator
  | immediate
  | indirectClose
  | indirectOpen
  deriving DecidableEq, Repr

instance : Keyword Punctuation where
  kind := .symbol
  table := [(.separator, ","), (.immediate, "#"), (.indirectClose, ")"), (.indirectOpen, "(")]

end Asm6502
