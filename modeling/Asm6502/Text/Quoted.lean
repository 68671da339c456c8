import Asm6502.Text.Unprintable

/-!
# Quoted text

A text in double quotes, with everything escaped that would not show as itself: quotes and
backslashes by a backslash, the common controls by a letter, every other character that does not
show by its code point in braces.
-/

namespace Asm6502.Quoted

/-- The escape of a code point: lower-case hexadecimal without leading zeros, in braces. -/
def codePoint (c : Char) : List Char :=
  "\\u\x7b".toList ++ Nat.toDigits 16 c.toNat ++ ['\x7d']

/-- A character as it stands between the quotes. -/
def escape (c : Char) : List Char :=
  match c with
  | '\x00' => ['\\', '0']
  | '\t' => ['\\', 't']
  | '\n' => ['\\', 'n']
  | '\r' => ['\\', 'r']
  | '"' => ['\\', '"']
  | '\\' => ['\\', '\\']
  | c => if Unprintable.contains c then codePoint c else [c]

def encode (text : String) : String :=
  String.ofList ('"' :: text.toList.flatMap escape ++ ['"'])

end Asm6502.Quoted
