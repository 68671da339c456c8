import Asm6502.Text.Quoted

/-!
# Text for a terminal

A line of the log may hold text from a source or a file name. The characters in it that a terminal
would obey and not show are escaped: bell, backspace, form feed, escape and delete by their two
digits, the second set of controls by their code point in braces. Tabs, line breaks and the other
controls stay, and so do backslashes, so an escape is for the eye and is not meant to be read back.
-/

namespace Asm6502.Terminal

/-- A control of the first set that a terminal obeys. -/
def isCommand (c : Char) : Bool := c ∈ ['\x07', '\x08', '\x0c', '\x1b', '\x7f']

/-- A control of the second set. -/
def isLateControl (c : Char) : Bool := 0x80 ≤ c.toNat && c.toNat ≤ 0x9f

/-- The escape of a control below `0x80`: two lower-case hexadecimal digits. -/
def twoDigits (c : Char) : List Char :=
  ['\\', 'x', Nat.digitChar (c.toNat / 16), Nat.digitChar (c.toNat % 16)]

/-- A character as the terminal gets it. -/
def escape (c : Char) : List Char :=
  if isCommand c then twoDigits c
  else if isLateControl c then Quoted.codePoint c
  else [c]

def encode (text : String) : String := String.ofList (text.toList.flatMap escape)

end Asm6502.Terminal
