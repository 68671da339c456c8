import Asm6502.Reader

/-!
# Sources in memory

A read is a slice of the data at the cursor. A read that asks for more than is left fails and
leaves the cursor at the end. A closed source is an empty one.
-/

namespace Asm6502

structure MemoryReader where
  path : Path
  data : Array UInt8
  offset : Nat := 0
  deriving DecidableEq, Repr

/-- Bytes that arrive from elsewhere and may break off. -/
structure Delivery where
  data : Bytes
  /-- The number of bytes after which the delivery fails, if it fails. -/
  breaksAfter : Option Nat := none
  reason : String := ""

/-- All the bytes of a delivery. It has failed once as many bytes as it can bring have arrived,
even if they were the last. -/
def Delivery.collect (d : Delivery) : Except String Bytes :=
  match d.breaksAfter with
  | some n => if n ≤ d.data.length then .error d.reason else .ok d.data
  | none => .ok d.data

namespace MemoryReader

def ofBytes (bs : Bytes) (path : Path) : MemoryReader := { path, data := bs.toArray }

/-- A source filled from a delivery before the first read. -/
def ofDelivery (d : Delivery) (path : Path) : Except Error MemoryReader :=
  match d.collect with
  | .ok bs => .ok (ofBytes bs path)
  | .error reason => .error (.ofCause (.deliveryFailed path reason))

def read (n : Nat) (r : MemoryReader) : Attempt Bytes MemoryReader :=
  if r.offset + n ≤ r.data.size then
    (.ok (r.data.extract r.offset (r.offset + n)).toList, { r with offset := r.offset + n })
  else (.error (.ofCause (.endOfFile r.path)), { r with offset := r.data.size })

instance : Reader MemoryReader where
  path := MemoryReader.path
  size r := .ok r.data.size
  read := MemoryReader.read
  reset r := (.ok (), { r with offset := 0 })
  close r := { r with data := #[], offset := 0 }
  left r := r.data.size - r.offset
  read_eq_ok := by
    intro n r r' bs h
    unfold MemoryReader.read at h
    split at h
    · obtain ⟨h1, rfl⟩ := Prod.mk.inj h
      obtain rfl := Except.ok.inj h1
      simp only [Array.length_toList, Array.size_extract]
      omega
    · simp at h

end MemoryReader

end Asm6502
