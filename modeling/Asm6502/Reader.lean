import Asm6502.Error

/-!
# Readers

A reader hands out the bytes of a named source one after another. A read delivers all the bytes
that were asked for or fails; a source that runs out fails with the code `ErrorCode.endOfFile`.
Readers are finite: every byte delivered brings `left` down until the reader is reset.
-/

namespace Asm6502

/-- Sequential access to the bytes of a source. -/
class Reader (ρ : Type) where
  path : ρ → Path
  /-- The length of the whole source. -/
  size : ρ → Except Error Nat
  read : Nat → ρ → Attempt Bytes ρ
  /-- Goes back to the first byte. -/
  reset : ρ → Attempt Unit ρ
  close : ρ → ρ
  /-- At least as many bytes as reading can still deliver. -/
  left : ρ → Nat
  read_eq_ok : ∀ {n : Nat} {r r' : ρ} {bs : Bytes}, read n r = (.ok bs, r') →
    bs.length = n ∧ left r' + n ≤ left r

namespace Reader

variable {ρ : Type} [Reader ρ]

/-- The next byte. -/
def readByte (r : ρ) : Attempt UInt8 ρ :=
  match read 1 r with
  | (.ok bs, r) => (.ok (bs.headD 0), r)
  | (.error e, r) => (.error e, r)

theorem left_lt_of_readByte {r r' : ρ} {b : UInt8} (h : readByte r = (.ok b, r')) :
    left r' < left r := by
  unfold readByte at h
  split at h
  · rename_i bs s hs
    obtain ⟨-, rfl⟩ := Prod.mk.inj h
    have := (read_eq_ok hs).2
    omega
  · simp at h

end Reader

end Asm6502
