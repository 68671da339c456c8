import Asm6502.Ascii

/-!
# Scalars

A scalar is read digit by digit from the left and has to fit 16 bits. At each digit it is checked
first that it is one, then that the value so far still fits; so of a bad digit and an overflow the
one further left counts.
-/

namespace Asm6502

/-- Why a text is no scalar. -/
inductive ScalarFault where
  | invalid
  | overflow
  deriving DecidableEq, Repr

namespace Scalar

/-- The value of a digit below `radix`. -/
def digit? (radix : Nat) (b : UInt8) : Option Nat :=
  (Ascii.digitValue? b).filter (· < radix)

/-- The value of the digits read so far, followed by more digits. -/
def readFrom (radix : Nat) : Nat → Bytes → Except ScalarFault UInt16
  | value, [] => .ok (UInt16.ofNat value)
  | value, b :: rest =>
    match digit? radix b with
    | none => .error .invalid
    | some d =>
      if value * radix + d < 0x10000 then readFrom radix (value * radix + d) rest
      else .error .overflow

/-- The value of a text in a radix. No digits make no scalar. -/
def read (radix : Nat) (text : Bytes) : Except ScalarFault UInt16 :=
  match text with
  | [] => .error .invalid
  | text => readFrom radix 0 text

end Scalar

end Asm6502
