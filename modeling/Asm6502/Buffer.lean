import Asm6502.Ascii

/-!
# Buffers

A buffer collects bytes in storage that grows by doubling. The first byte makes room for sixteen;
later the room doubles when one more byte would fill it. Clearing keeps the room, freeing gives it
back, and a copy has just the room that it needs.
-/

namespace Asm6502

structure Buffer where
  bytes : Array UInt8 := #[]
  capacity : Nat := 0
  deriving DecidableEq, Repr

namespace Buffer

instance : EmptyCollection Buffer := ⟨{}⟩

/-- The room that the first byte makes. -/
def initialCapacity : Nat := 16

def ofArray (bytes : Array UInt8) : Buffer := ⟨bytes, bytes.size⟩

def size (b : Buffer) : Nat := b.bytes.size

def isEmpty (b : Buffer) : Bool := b.bytes.isEmpty

/-- Makes room for just so many bytes behind those that are there. -/
def reserveExact (additional : Nat) (b : Buffer) : Buffer :=
  { b with capacity := max b.capacity (b.size + additional) }

def grow (additional : Nat) (b : Buffer) : Buffer :=
  let capacity := b.capacity + additional
  b.reserveExact (capacity - b.size)

/-- Makes sure that one more byte leaves room to spare. -/
def reserve (b : Buffer) : Buffer :=
  if b.capacity = 0 then b.grow initialCapacity
  else if b.capacity ≤ b.size + 1 then b.grow b.capacity
  else b

def push (byte : UInt8) (b : Buffer) : Buffer :=
  let b := b.reserve
  { b with bytes := b.bytes.push byte }

def append (bytes : Bytes) (b : Buffer) : Buffer := bytes.foldl (fun b byte => b.push byte) b

def clear (b : Buffer) : Buffer := { b with bytes := #[] }

def free (_ : Buffer) : Buffer := ∅

def copy (b : Buffer) : Buffer := ofArray b.bytes

/-- Equality of contents, whatever the room. -/
def same (b c : Buffer) : Bool := b.bytes == c.bytes

end Buffer

end Asm6502
