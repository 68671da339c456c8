/-!
# The version of the assembler
-/

namespace Asm6502

structure Version where
  major : UInt32
  minor : UInt32
  patch : UInt32
  deriving DecidableEq, Repr

instance : ToString Version where
  toString v := s!"{v.major}.{v.minor}.{v.patch}"

/-- The version of this library. -/
def version : Version := ⟨0, 1, 1⟩

end Asm6502
