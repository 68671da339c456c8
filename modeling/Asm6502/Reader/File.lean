import Asm6502.Reader

/-!
# Sources in files

The operating system may deliver fewer bytes than it was asked for, but at least one unless the
file is at its end. A read of a file asks again until it has everything or nothing comes. A
directory can be opened and rewound, but not read. After it is closed, a file fails every
operation.
-/

namespace Asm6502

/-- What stands at a place in the file system. -/
inductive Node where
  | file (data : Array UInt8)
  | directory
  deriving DecidableEq, Repr

/-- A file that the operating system has opened. -/
structure OpenFile where
  node : Node
  offset : Nat := 0
  /-- The number of requests served. -/
  served : Nat := 0
  /-- How much of what is asked for comes at each request; at least one byte does. -/
  grant : Nat → Nat → Nat := fun _ asked => asked

/-- Why a read stopped early. -/
inductive ReadFault where
  | ended
  | refused (reason : OsError)
  deriving DecidableEq, Repr

namespace OpenFile

/-- The size that the operating system reports. -/
def size (f : OpenFile) : Nat :=
  match f.node with
  | .file data => data.size
  | .directory => 4096

/-- One request for at most `n` bytes. -/
def request (n : Nat) (f : OpenFile) : Except OsError Bytes × OpenFile :=
  match f.node with
  | .directory => (.error .isDirectory, f)
  | .file data =>
    let chunk := data.extract f.offset (f.offset + min n (max 1 (f.grant f.served n)))
    (.ok chunk.toList, { f with offset := f.offset + chunk.size, served := f.served + 1 })

/-- Requests until exactly `n` bytes have come. -/
def readExact (n : Nat) (f : OpenFile) : Except ReadFault Bytes × OpenFile :=
  if n = 0 then (.ok [], f)
  else
    match f.request n with
    | (.error reason, f) => (.error (.refused reason), f)
    | (.ok [], f) => (.error .ended, f)
    | (.ok (b :: chunk), f) =>
      match readExact (n - (chunk.length + 1)) f with
      | (.ok rest, f) => (.ok (b :: chunk ++ rest), f)
      | (.error fault, f) => (.error fault, f)
termination_by n
decreasing_by omega

/-- The bytes after the cursor. -/
def left (f : OpenFile) : Nat :=
  match f.node with
  | .file data => data.size - f.offset
  | .directory => 0

theorem request_eq_ok {n : Nat} {f f' : OpenFile} {bs : Bytes} (h : f.request n = (.ok bs, f')) :
    bs.length ≤ n ∧ f'.left + bs.length = f.left := by
  unfold request at h
  split at h
  · simp at h
  · rename_i data hd
    obtain ⟨h1, rfl⟩ := Prod.mk.inj h
    obtain rfl := Except.ok.inj h1
    simp only [left, hd, Array.length_toList, Array.size_extract]
    omega

theorem readExact_eq_ok {n : Nat} {f f' : OpenFile} {bs : Bytes}
    (h : f.readExact n = (.ok bs, f')) : bs.length = n ∧ f'.left + n = f.left := by
  fun_induction readExact n f generalizing bs f' with
  | case1 f =>
    simp only [Prod.mk.injEq, Except.ok.injEq] at h
    obtain ⟨rfl, rfl⟩ := h
    simp
  | case2 => simp at h
  | case3 => simp at h
  | case4 n f _ b chunk g hg rest g' hr ih =>
    simp only [Prod.mk.injEq, Except.ok.injEq] at h
    obtain ⟨rfl, rfl⟩ := h
    have h1 := request_eq_ok hg
    have h2 := ih hr
    simp only [List.length_cons, List.length_append] at h1 ⊢
    omega
  | case5 => simp at h

end OpenFile

structure FileReader where
  path : Path
  handle : Option OpenFile

namespace FileReader

def read (n : Nat) (r : FileReader) : Attempt Bytes FileReader :=
  match r.handle with
  | none => (.error (.ofCause (.fileClosed r.path)), r)
  | some f =>
    match f.readExact n with
    | (.ok bs, f) => (.ok bs, { r with handle := some f })
    | (.error .ended, f) => (.error (.ofCause (.endOfFile r.path)), { r with handle := some f })
    | (.error (.refused reason), f) =>
      (.error (.ofCause (.readFailed r.path reason)), { r with handle := some f })

instance : Reader FileReader where
  path := FileReader.path
  size r :=
    match r.handle with
    | none => .error (.ofCause (.fileClosed r.path))
    | some f => .ok f.size
  read := FileReader.read
  reset r :=
    match r.handle with
    | none => (.error (.ofCause (.fileClosed r.path)), r)
    | some f => (.ok (), { r with handle := some { f with offset := 0 } })
  close r := { r with handle := none }
  left r := r.handle.elim 0 OpenFile.left
  read_eq_ok := by
    intro n r r' bs h
    unfold FileReader.read at h
    split at h
    · simp at h
    · rename_i f hf
      split at h
      · rename_i bs' g hg
        simp only [Prod.mk.injEq, Except.ok.injEq] at h
        obtain ⟨rfl, rfl⟩ := h
        have := OpenFile.readExact_eq_ok hg
        simp only [hf, Option.elim]
        omega
      · simp at h
      · simp at h

end FileReader

end Asm6502
