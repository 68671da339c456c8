/-!
# Bytes and ASCII

A source is a list of bytes. Letters, digits and blanks are the ASCII ones; every byte has
exactly one `ByteClass`, and the bytes from `0x80` on are symbols.
-/

namespace Asm6502

/-- A piece of a source. -/
abbrev Bytes := List UInt8

namespace Ascii

def nul : UInt8 := 0x00
def tab : UInt8 := 0x09
def lineFeed : UInt8 := 0x0a
def verticalTab : UInt8 := 0x0b
def formFeed : UInt8 := 0x0c
def carriageReturn : UInt8 := 0x0d
def space : UInt8 := 0x20
def quote : UInt8 := 0x22
def dollar : UInt8 := 0x24
def percent : UInt8 := 0x25
def dot : UInt8 := 0x2e
def colon : UInt8 := 0x3a
def semicolon : UInt8 := 0x3b
def backslash : UInt8 := 0x5c
def underscore : UInt8 := 0x5f

def isUpper (b : UInt8) : Bool := 0x41 ≤ b && b ≤ 0x5a

def isLower (b : UInt8) : Bool := 0x61 ≤ b && b ≤ 0x7a

def isLetter (b : UInt8) : Bool := isUpper b || isLower b

def isDigit (b : UInt8) : Bool := 0x30 ≤ b && b ≤ 0x39

def isAlphanumeric (b : UInt8) : Bool := isLetter b || isDigit b

/-- A byte that may continue a name. -/
def isWordByte (b : UInt8) : Bool := isAlphanumeric b || b == underscore

def isBlank (b : UInt8) : Bool :=
  b == space || b == tab || b == lineFeed || b == verticalTab || b == formFeed ||
    b == carriageReturn

def isAscii (b : UInt8) : Bool := b < 0x80

/-- The value of a digit: `0` to `9`, then letters of either case from ten on. -/
def digitValue? (b : UInt8) : Option Nat :=
  if isDigit b then some (b.toNat - 0x30)
  else if isUpper b then some (b.toNat - 0x41 + 10)
  else if isLower b then some (b.toNat - 0x61 + 10)
  else none

def toChar (b : UInt8) : Char := Char.ofUInt8 b

/-- The bytes of an ASCII text. -/
def bytes (s : String) : Bytes := s.toList.map fun c => c.toNat.toUInt8

/-- A number in upper-case hexadecimal, with leading zeros up to `width` digits. -/
def hex (width n : Nat) : String :=
  let digits := (Nat.toDigits 16 n).map Char.toUpper
  String.ofList (List.replicate (width - digits.length) '0' ++ digits)

end Ascii

/-- What a byte can start. -/
inductive ByteClass where
  | nul
  | letter
  | digit
  | blank
  | symbol
  deriving DecidableEq, Repr

/-- The class of a byte. -/
def ByteClass.of (b : UInt8) : ByteClass :=
  if b == Ascii.nul then .nul
  else if Ascii.isLetter b then .letter
  else if Ascii.isDigit b then .digit
  else if Ascii.isBlank b then .blank
  else .symbol

end Asm6502
