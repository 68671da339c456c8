import Asm6502.Reader

/-!
# Sources that fail on purpose

A faulty reader is a source in memory with planned failures: a wrong or failing size, an offset
that cannot be read, a reset that fails. Bytes read before the failing one are consumed, a failing
byte or reset moves nothing, and closing has no effect.
-/

namespace Asm6502

structure FaultyReader where
  path : Path
  data : Array UInt8
  offset : Nat := 0
  /-- The size to report in place of the true one. -/
  claimedSize : Option Nat := none
  sizeFails : Bool := false
  /-- An offset that cannot be read, and the error it gives. -/
  badOffset : Option (Nat × Error) := none
  /-- Which reset fails, counted from one. -/
  badReset : Option Nat := none
  resets : Nat := 0
  deriving DecidableEq, Repr

namespace FaultyReader

/-- An error in the words of this reader. -/
def fault (code : ErrorCode) (message : String) : Error := .ofCause (.reported code message)

/-- The byte at the cursor, if there is one. -/
def takeByte (r : FaultyReader) : Attempt UInt8 FaultyReader :=
  match r.data[r.offset]? with
  | some b => (.ok b, { r with offset := r.offset + 1 })
  | none => (.error (fault .endOfFile "faulty end"), r)

/-- The byte at the cursor, unless the cursor is on the bad offset. -/
def byte (r : FaultyReader) : Attempt UInt8 FaultyReader :=
  match r.badOffset with
  | some (n, e) => if n = r.offset then (.error e, r) else r.takeByte
  | none => r.takeByte

def read : Nat → FaultyReader → Attempt Bytes FaultyReader
  | 0, r => (.ok [], r)
  | n + 1, r =>
    match r.byte with
    | (.error e, r) => (.error e, r)
    | (.ok b, r) =>
      match read n r with
      | (.ok bs, r) => (.ok (b :: bs), r)
      | (.error e, r) => (.error e, r)

def left (r : FaultyReader) : Nat := r.data.size - r.offset

theorem takeByte_eq_ok {r r' : FaultyReader} {b : UInt8} (h : r.takeByte = (.ok b, r')) :
    r'.left + 1 = r.left := by
  unfold takeByte at h
  split at h
  · rename_i c hc
    obtain ⟨-, rfl⟩ := Prod.mk.inj h
    have := (Array.getElem?_eq_some_iff.1 hc).1
    simp only [left]
    omega
  · simp at h

theorem byte_eq_ok {r r' : FaultyReader} {b : UInt8} (h : r.byte = (.ok b, r')) :
    r'.left + 1 = r.left := by
  unfold byte at h
  split at h
  · split at h
    · simp at h
    · exact takeByte_eq_ok h
  · exact takeByte_eq_ok h

theorem read_eq_ok {n : Nat} {r r' : FaultyReader} {bs : Bytes} (h : read n r = (.ok bs, r')) :
    bs.length = n ∧ r'.left + n = r.left := by
  induction n generalizing r bs with
  | zero =>
    simp only [read, Prod.mk.injEq, Except.ok.injEq] at h
    obtain ⟨rfl, rfl⟩ := h
    simp
  | succ n ih =>
    simp only [read] at h
    split at h
    · simp at h
    · rename_i b s hb
      split at h
      · rename_i cs t hr
        simp only [Prod.mk.injEq, Except.ok.injEq] at h
        obtain ⟨rfl, rfl⟩ := h
        have h1 := byte_eq_ok hb
        have h2 := ih hr
        simp only [List.length_cons]
        omega
      · simp at h

instance : Reader FaultyReader where
  path := FaultyReader.path
  size r :=
    if r.sizeFails then .error (fault .io "faulty size")
    else .ok (r.claimedSize.getD r.data.size)
  read := FaultyReader.read
  reset r :=
    let r := { r with resets := r.resets + 1 }
    if r.badReset = some r.resets then (.error (fault .io "faulty reset"), r)
    else (.ok (), { r with offset := 0 })
  close r := r
  left := FaultyReader.left
  read_eq_ok h := by
    have := FaultyReader.read_eq_ok h
    omega

end FaultyReader

end Asm6502
