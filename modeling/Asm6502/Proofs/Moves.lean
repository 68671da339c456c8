import Asm6502.Proofs.Delivery

/-!
# Moves of a stream

A stream over bytes in memory stands on one of them, and counting alone says on which
(`Move.lead`): a move forward leads to the following offset, and from the last one nowhere; a
rewind leads to the first; a closed stream stands on none.

- The reader is one byte ahead of the stream (`standing`), so that a read fails on the last byte
  and leaves everything as it is.
- Each move leads from the stream on one offset to the stream on the other (`Stands.move`), so
  every run of moves does, and byte and position are those of the offset (`shows_counted_place`).
-/

namespace Asm6502.Stream

open Position (past)

/-- What can be done to a stream. -/
inductive Move where
  | next
  | reset
  | close
  deriving DecidableEq, Repr

/-- The offset that a move leads to in a source of `n` bytes. A closed stream is on none. -/
def Move.lead (n : Nat) : Option Nat → Move → Option Nat
  | none, _ => none
  | some k, next => some (if k + 1 < n then k + 1 else k)
  | some _, reset => some 0
  | some _, close => none

/-- The offset that moves lead to from the first byte. -/
def Move.trail (n : Nat) (ms : List Move) : Option Nat := ms.foldl (lead n) (some 0)

section

variable {ρ : Type} [Reader ρ]

/-- The stream that a move leaves. -/
def move (s : Stream ρ) : Move → Stream ρ
  | .next => s.next.2
  | .reset => s.reset.2
  | .close => s.close

/-- The stream that moves one after another leave. -/
def moves (s : Stream ρ) (ms : List Move) : Stream ρ := ms.foldl move s

/-- What can be seen of a stream on offset `k` of `bs` that was `first` when it was made. -/
structure ShowsByte (first : Stream ρ) (bs : Bytes) (k : Nat) (s : Stream ρ) : Prop where
  byte : bs[k]? = some s.byte
  line : s.pos.line.toNat = min (1 + (bs.take k).count Ascii.lineFeed) 0xffffffff
  column : s.pos.column.toNat = min (Position.lastLine (bs.take k)) 0xffffffff
  next_ok_iff : s.next.1 = .ok () ↔ k + 1 < bs.length
  next_error : ¬ k + 1 < bs.length → ∃ e, e.code = .endOfFile ∧ s.next = (.error e, s)
  reset : s.reset = (.ok (), first)

/-- What can be seen of a stream that is closed. -/
structure ShowsClosed (s : Stream ρ) : Prop where
  byte : s.byte = Ascii.nul
  pos : s.pos = .start
  next : ∃ e, e.code = .endOfFile ∧ s.next = (.error e, s)
  reset : ∃ e, e.code = .endOfFile ∧ s.reset = (.error e, s)

/-- What can be seen of a stream on an offset or on none. -/
def Shows (first : Stream ρ) (bs : Bytes) : Option Nat → Stream ρ → Prop
  | some k, s => ShowsByte first bs k s
  | none, s => ShowsClosed s

end

variable {path : Path} {bs : Bytes} {k : Nat} {o : Option Nat} {s : Stream MemoryReader}

/-! ## Streams over bytes in memory -/

/-- The stream on offset `k`. -/
def standing (path : Path) (bs : Bytes) (k : Nat) (h : k < bs.length) : Stream MemoryReader :=
  ⟨{ path, data := bs.toArray, offset := k + 1 }, bs[k], past (bs.take k)⟩

/-- The stream that has been closed. -/
def shut (path : Path) : Stream MemoryReader := ⟨{ path, data := #[] }, Ascii.nul, .start⟩

theorem readByte_of_length_le {r : MemoryReader} (h : r.offset = r.data.size) :
    Reader.readByte r = (.error (.ofCause (.endOfFile r.path)), r) := by
  rw [MemoryReader.readByte_of_none (by simp [h]), ← h]

theorem reset_memory (h : 0 < bs.length) (j : Nat) (b : UInt8) (pos : Position) :
    reset (⟨{ path, data := bs.toArray, offset := j }, b, pos⟩ : Stream MemoryReader) =
      (.ok (), standing path bs 0 h) := by
  have hreset : Reader.reset ({ path, data := bs.toArray, offset := j } : MemoryReader) =
      (.ok (), { path, data := bs.toArray, offset := 0 }) := rfl
  have hread := MemoryReader.readByte_of_some (r := { path, data := bs.toArray, offset := 0 })
    (b := bs[0]) (by simp)
  simp [reset, hreset, hread, standing, Position.past_nil]

theorem ofReader_memory (h : 0 < bs.length) (j : Nat) :
    ofReader { path, data := bs.toArray, offset := j } = .ok (standing path bs 0 h) := by
  have hsize : Reader.size ({ path, data := bs.toArray, offset := j } : MemoryReader) =
      .ok bs.length := rfl
  obtain ⟨n, hn⟩ := Nat.exists_eq_succ_of_ne_zero (Nat.ne_of_gt h)
  simp only [ofReader, hsize, hn]
  rw [reset_memory h j]

theorem next_standing (h : k < bs.length) (hlt : k + 1 < bs.length) :
    (standing path bs k h).next = (.ok (), standing path bs (k + 1) hlt) := by
  have hread := MemoryReader.readByte_of_some (r := (standing path bs k h).reader)
    (b := bs[k + 1]) (by simp [standing, hlt])
  rw [next_of_ok hread]
  simp [standing, Position.after_past]

theorem next_standing_last (h : k < bs.length) (hle : ¬ k + 1 < bs.length) :
    (standing path bs k h).next =
      (.error (.ofCause (.endOfFile path)), standing path bs k h) := by
  have hread := readByte_of_length_le (r := (standing path bs k h).reader)
    (by simp [standing]; omega)
  exact next_of_error hread

theorem next_shut : (shut path).next = (.error (.ofCause (.endOfFile path)), shut path) :=
  next_of_error (readByte_of_length_le rfl)

theorem reset_shut : (shut path).reset = (.error (.ofCause (.endOfFile path)), shut path) := by
  have hreset : Reader.reset (shut path).reader = (.ok (), (shut path).reader) := rfl
  have hread := readByte_of_length_le (r := (shut path).reader) rfl
  simp only [reset, hreset, hread]
  rfl

/-! ## Runs of moves -/

/-- The stream over `bs` on an offset or on none. -/
def Stands (path : Path) (bs : Bytes) : Option Nat → Stream MemoryReader → Prop
  | some k, s => ∃ h, s = standing path bs k h
  | none, s => s = shut path

/-- A move leads from the stream on one offset to the stream on the other. -/
theorem Stands.move (hs : Stands path bs o s) (m : Move) :
    Stands path bs (m.lead bs.length o) (s.move m) := by
  cases o with
  | none =>
    obtain rfl : s = shut path := hs
    cases m with
    | next => exact congrArg Prod.snd next_shut
    | reset => exact congrArg Prod.snd reset_shut
    | close => rfl
  | some k =>
    obtain ⟨h, rfl⟩ := hs
    cases m with
    | next =>
      by_cases hlt : k + 1 < bs.length
      · simpa [Move.lead, hlt] using ⟨hlt, congrArg Prod.snd (next_standing h hlt)⟩
      · simpa [Move.lead, hlt] using ⟨h, congrArg Prod.snd (next_standing_last h hlt)⟩
    | reset =>
      have h0 : 0 < bs.length := Nat.zero_lt_of_lt h
      exact ⟨h0, congrArg Prod.snd (reset_memory h0 _ _ _)⟩
    | close => rfl

theorem Stands.moves (hs : Stands path bs o s) (ms : List Move) :
    Stands path bs (ms.foldl (Move.lead bs.length) o) (s.moves ms) := by
  induction ms generalizing o s with
  | nil => exact hs
  | cons m ms ih => exact ih (hs.move m)

theorem Stands.shows (hs : Stands path bs o s) (h0 : 0 < bs.length) :
    Shows (standing path bs 0 h0) bs o s := by
  cases o with
  | none =>
    obtain rfl : s = shut path := hs
    exact ⟨rfl, rfl, ⟨_, rfl, next_shut⟩, ⟨_, rfl, reset_shut⟩⟩
  | some k =>
    obtain ⟨h, rfl⟩ := hs
    refine ⟨List.getElem?_eq_getElem h, ?_, Position.toNat_saturate _, ?_, ?_,
      reset_memory h0 _ _ _⟩
    · rw [Nat.add_comm]
      exact Position.toNat_saturate _
    · by_cases hlt : k + 1 < bs.length
      · simp [hlt, next_standing h hlt]
      · simp [hlt, next_standing_last h hlt]
    · intro hle
      exact ⟨_, rfl, next_standing_last h hle⟩

/-- A stream over any reader of bytes in memory, wherever the reader stood: whatever moves are made,
it shows the byte at the offset that counting leads to, with the position that counting the bytes
before it gives, until it is closed; and then it shows nothing. -/
theorem shows_counted_place (r : MemoryReader) {bs : Bytes} (hr : r.data.toList = bs)
    (hne : bs ≠ []) : ∃ first, ofReader r = .ok first ∧ first.pos = ⟨1, 0⟩ ∧
      ∀ ms : List Move, Shows first bs (Move.trail bs.length ms) (first.moves ms) := by
  obtain ⟨path, data, j⟩ := r
  subst hr
  have h0 : 0 < data.toList.length := List.length_pos_iff.2 hne
  refine ⟨standing path data.toList 0 h0, ofReader_memory h0 j, rfl, fun ms => ?_⟩
  have hfirst : Stands path data.toList (some 0) (standing path data.toList 0 h0) := ⟨h0, rfl⟩
  exact (hfirst.moves ms).shows h0

/-- Two lines of one byte each: behind the line feed stands the last byte. -/
theorem shows_counted_place_two_lines :
    ∃ first, ofReader (MemoryReader.ofBytes [0x58, Ascii.lineFeed, 0x59] ⟨"x.s"⟩) = .ok first ∧
      ShowsByte first [0x58, Ascii.lineFeed, 0x59] 2
        (first.moves [.next, .reset, .next, .next, .next]) ∧
      ShowsClosed (first.moves [.next, .close, .reset]) := by
  obtain ⟨first, hfirst, -, hshows⟩ := shows_counted_place
    (MemoryReader.ofBytes [0x58, Ascii.lineFeed, 0x59] ⟨"x.s"⟩) rfl (List.cons_ne_nil _ _)
  exact ⟨first, hfirst, hshows [.next, .reset, .next, .next, .next],
    hshows [.next, .close, .reset]⟩

end Asm6502.Stream
