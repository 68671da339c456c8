import Asm6502.Proofs.Delivery
import Asm6502.Reader.File
import Mathlib.Logic.Function.Iterate

/-!
# Files and memory are interchangeable

What some bytes answer from an offset on does not depend on where they are kept (`Reader.slice`). A
file whose bytes arrive in parts of any size and a source in memory both answer every run of
queries like that (`FileReader.slices`, `MemoryReader.slices`), so nobody who only asks can tell
them apart. They part when they are closed: then the file fails whatever it is asked for, and the
memory is that of no bytes (`Reader.file_answers_as_memory`).
-/

namespace Asm6502

namespace Reader

/-! ## Queries -/

/-- What can be asked of a reader. -/
inductive Query where
  | size
  | read (n : Nat)
  | readByte
  | reset
  deriving DecidableEq, Repr

/-- What a reader gives if it does not fail. -/
inductive Reply where
  | size (n : Nat)
  | bytes (bs : Bytes)
  | byte (b : UInt8)
  | rewound
  deriving DecidableEq, Repr

section

variable (path : Path) (bs : Bytes)

/-- What some bytes answer from offset `k` on, and the offset after that. -/
def slice (k : Nat) : Query → Attempt Reply Nat
  | .size => (.ok (.size bs.length), k)
  | .read n =>
    if k + n ≤ bs.length then (.ok (.bytes ((bs.drop k).take n)), k + n)
    else (.error (.ofCause (.endOfFile path)), bs.length)
  | .readByte =>
    match bs[k]? with
    | some b => (.ok (.byte b), k + 1)
    | none => (.error (.ofCause (.endOfFile path)), bs.length)
  | .reset => (.ok .rewound, 0)

/-- What some bytes answer to one query after another from offset `k` on. -/
def sliceAll : Nat → List Query → List (Except Error Reply)
  | _, [] => []
  | k, q :: qs => (slice path bs k q).1 :: sliceAll (slice path bs k q).2 qs

end

/-- The bytes that an answer brings. -/
def Reply.bytesOf : Except Error Reply → Bytes
  | .ok (.bytes bs) => bs
  | .ok (.byte b) => [b]
  | _ => []

theorem slice_step (path : Path) (bs : Bytes) (k : Nat) {q : Query} (hq : q ≠ .reset) :
    Reply.bytesOf (slice path bs k q).1 ++ bs.drop (slice path bs k q).2 <+: bs.drop k := by
  cases q with
  | size => exact List.prefix_rfl
  | read n =>
    simp only [slice]
    split
    · exact ⟨[], by simp [Reply.bytesOf, ← List.drop_drop]⟩
    · simp [Reply.bytesOf]
  | readByte =>
    simp only [slice]
    split
    · rename_i b hb
      obtain ⟨hlt, rfl⟩ := List.getElem?_eq_some_iff.1 hb
      rw [List.drop_eq_getElem_cons hlt]
      exact List.prefix_rfl
    · simp [Reply.bytesOf]
  | reset => exact absurd rfl hq

/-- Without a reset the bytes are delivered one after another, from the offset on and none of them
twice. -/
theorem sliceAll_consecutive (path : Path) (bs : Bytes) {k : Nat} {qs : List Query}
    (hqs : .reset ∉ qs) : (sliceAll path bs k qs).flatMap Reply.bytesOf <+: bs.drop k := by
  induction qs generalizing k with
  | nil => exact List.nil_prefix
  | cons q qs ih =>
    obtain ⟨hq, hqs⟩ := List.ne_and_not_mem_of_not_mem_cons hqs
    rw [sliceAll, List.flatMap_cons]
    exact (List.prefix_append_right_inj _).2 (ih hqs) |>.trans (slice_step path bs k hq.symm)

theorem slice_le (path : Path) {bs : Bytes} {k : Nat} (hk : k ≤ bs.length) (q : Query) :
    (slice path bs k q).2 ≤ bs.length := by
  cases q with
  | size => exact hk
  | read n =>
    simp only [slice]
    split
    · assumption
    · exact Nat.le_refl _
  | readByte =>
    simp only [slice]
    split
    · rename_i b hb
      exact (List.getElem?_eq_some_iff.1 hb).1
    · exact Nat.le_refl _
  | reset => exact Nat.zero_le _

/-- A read of no bytes succeeds wherever the offset is, also at the end. -/
theorem sliceAll_read_zero (path : Path) {bs : Bytes} {k i : Nat} {qs : List Query}
    (hk : k ≤ bs.length) (hi : qs[i]? = some (.read 0)) :
    (sliceAll path bs k qs)[i]? = some (.ok (.bytes [])) := by
  induction qs generalizing k i with
  | nil => cases hi
  | cons q qs ih =>
    cases i with
    | zero =>
      obtain rfl := Option.some.inj hi
      simp [sliceAll, slice, hk]
    | succ i => exact ih (slice_le path hk q) hi

variable {ρ : Type} [Reader ρ] {path : Path} {bs : Bytes} {On : Nat → ρ → Prop}

/-- The answer of a reader, and the reader that it leaves. -/
def answer (r : ρ) : Query → Attempt Reply ρ
  | .size => ((size r).map .size, r)
  | .read n => ((read n r).1.map .bytes, (read n r).2)
  | .readByte => ((readByte r).1.map .byte, (readByte r).2)
  | .reset => ((reset r).1.map fun _ => .rewound, (reset r).2)

/-- The answers of a reader to one query after another, and the reader that they leave. -/
def answers (r : ρ) : List Query → List (Except Error Reply) × ρ
  | [] => ([], r)
  | q :: qs => ((answer r q).1 :: (answers (answer r q).2 qs).1, (answers (answer r q).2 qs).2)

/-! ## Readers that answer as bytes do -/

/-- Readers that give slices of `bs`; those on offset `k` satisfy `On k`. A read beyond the last
byte takes the cursor to the end. -/
structure Slices (path : Path) (bs : Bytes) (On : Nat → ρ → Prop) : Prop where
  le : ∀ {k r}, On k r → k ≤ bs.length
  size : ∀ {k r}, On k r → Reader.size r = .ok bs.length
  reset : ∀ {k r}, On k r → ∃ r', Reader.reset r = (.ok (), r') ∧ On 0 r'
  read : ∀ {k r n}, On k r → k + n ≤ bs.length →
    ∃ r', Reader.read n r = (.ok ((bs.drop k).take n), r') ∧ On (k + n) r'
  beyond : ∀ {k r n}, On k r → bs.length < k + n →
    ∃ r', Reader.read n r = (.error (.ofCause (.endOfFile path)), r') ∧ On bs.length r'
  path : ∀ {k r}, On k r → Reader.path r = path

section

variable {k : Nat} {r : ρ}

theorem Slices.next (h : Slices path bs On) (hk : On k r) {b : UInt8} (hb : bs[k]? = some b) :
    ∃ r', readByte r = (.ok b, r') ∧ On (k + 1) r' := by
  obtain ⟨hlt, rfl⟩ := List.getElem?_eq_some_iff.1 hb
  obtain ⟨r', hread, hr'⟩ := h.read hk (n := 1) hlt
  refine ⟨r', ?_, hr'⟩
  rw [readByte, hread, List.drop_eq_getElem_cons hlt]
  rfl

theorem Slices.ending (h : Slices path bs On) (hk : On k r) (hb : bs[k]? = none) :
    ∃ r', readByte r = (.error (.ofCause (.endOfFile path)), r') ∧ On bs.length r' := by
  have hle := List.getElem?_eq_none_iff.1 hb
  obtain ⟨r', hread, hr'⟩ := h.beyond hk (n := 1) (by omega)
  exact ⟨r', by rw [readByte, hread], hr'⟩

theorem Slices.serves (h : Slices path bs On) : Serves path bs On where
  path := h.path
  size := h.size
  reset := h.reset
  next hk hb := h.next hk hb
  ending := by
    intro k r hk hb
    obtain ⟨r', hread, hr'⟩ := h.ending hk hb
    have hend : bs.length = k := Nat.le_antisymm (List.getElem?_eq_none_iff.1 hb) (h.le hk)
    exact ⟨_, r', hread, rfl, hend ▸ hr'⟩

theorem Slices.answer (h : Slices path bs On) (hk : On k r) (q : Query) :
    ∃ r', Reader.answer r q = ((slice path bs k q).1, r') ∧ On (slice path bs k q).2 r' := by
  cases q with
  | size => exact ⟨r, by rw [Reader.answer, h.size hk]; rfl, hk⟩
  | read n =>
    simp only [slice]
    split
    · rename_i hn
      obtain ⟨r', hread, hr'⟩ := h.read hk hn
      exact ⟨r', by rw [Reader.answer, hread]; rfl, hr'⟩
    · rename_i hn
      obtain ⟨r', hread, hr'⟩ := h.beyond hk (Nat.not_le.1 hn)
      exact ⟨r', by rw [Reader.answer, hread]; rfl, hr'⟩
  | readByte =>
    simp only [slice]
    split
    · rename_i b hb
      obtain ⟨r', hread, hr'⟩ := h.next hk hb
      exact ⟨r', by rw [Reader.answer, hread]; rfl, hr'⟩
    · rename_i hb
      obtain ⟨r', hread, hr'⟩ := h.ending hk hb
      exact ⟨r', by rw [Reader.answer, hread]; rfl, hr'⟩
  | reset =>
    obtain ⟨r', hreset, hr'⟩ := h.reset hk
    exact ⟨r', by rw [Reader.answer, hreset]; rfl, hr'⟩

/-- Such readers answer any run of queries as the bytes do. -/
theorem Slices.answers (h : Slices path bs On) (hk : On k r) (qs : List Query) :
    (Reader.answers r qs).1 = sliceAll path bs k qs ∧ ∃ j, On j (Reader.answers r qs).2 := by
  induction qs generalizing k r with
  | nil => exact ⟨rfl, k, hk⟩
  | cons q qs ih =>
    obtain ⟨r', ha, hr'⟩ := h.answer hk q
    obtain ⟨hanswers, hlast⟩ := ih hr'
    simp only [Reader.answers, sliceAll, ha]
    exact ⟨by rw [hanswers], hlast⟩

end

end Reader

/-! ## Memory -/

namespace MemoryReader

/-- The sources in memory that hold `bs`. -/
def OnOffset (path : Path) (bs : Bytes) (k : Nat) (r : MemoryReader) : Prop :=
  r = { path, data := bs.toArray, offset := k } ∧ k ≤ bs.length

theorem slices (path : Path) (bs : Bytes) : Reader.Slices path bs (OnOffset path bs) where
  path := by
    rintro k _ ⟨rfl, -⟩
    rfl
  le h := h.2
  size := by
    rintro k _ ⟨rfl, -⟩
    rfl
  reset := by
    rintro k _ ⟨rfl, -⟩
    exact ⟨_, rfl, rfl, Nat.zero_le _⟩
  read := by
    rintro k _ n ⟨rfl, -⟩ hn
    refine ⟨_, ?_, rfl, hn⟩
    show MemoryReader.read n _ = _
    simp [MemoryReader.read, hn, List.extract_eq_take_drop]
  beyond := by
    rintro k _ n ⟨rfl, -⟩ hn
    refine ⟨_, ?_, rfl, Nat.le_refl _⟩
    show MemoryReader.read n _ = _
    simp [MemoryReader.read, Nat.not_le.2 hn]

end MemoryReader

/-! ## Files -/

namespace OpenFile

/-- The open files that hold `bs`, with their cursor at offset `k`. -/
structure OnOffset (bs : Bytes) (k : Nat) (f : OpenFile) : Prop where
  node : f.node = .file bs.toArray
  offset : f.offset = k
  le : k ≤ bs.length

variable {bs : Bytes} {k n : Nat} {f : OpenFile}

/-- A request is served with some of the next bytes, and with none only at the end. -/
theorem OnOffset.request (hf : OnOffset bs k f) (hn : n ≠ 0) :
    ∃ chunk f', f.request n = (.ok chunk, f') ∧ chunk <+: bs.drop k ∧ chunk.length ≤ n ∧
      (chunk = [] → k = bs.length) ∧ OnOffset bs (k + chunk.length) f' := by
  obtain ⟨hnode, rfl, hk⟩ := hf
  generalize hm : min n (max 1 (f.grant f.served n)) = m
  have hlength : ((bs.drop f.offset).take m).length = min m (bs.length - f.offset) := by simp
  refine ⟨(bs.drop f.offset).take m,
    { f with offset := f.offset + ((bs.drop f.offset).take m).length, served := f.served + 1 },
    ?_, List.take_prefix m _, by omega, ?_, hnode, rfl, by omega⟩
  · simp [request, hnode, hm, List.extract_eq_take_drop]
  · intro hnil
    rw [hnil, List.length_nil] at hlength
    omega

/-- The next bytes are a part of them and the bytes after that part. -/
theorem take_of_part {chunk : Bytes} (h : chunk <+: bs.drop k) (hlength : chunk.length ≤ n) :
    (bs.drop k).take n =
      chunk ++ (bs.drop (k + chunk.length)).take (n - chunk.length) := by
  obtain ⟨rest, hrest⟩ := h
  rw [← List.drop_drop, ← hrest, List.drop_left, List.take_append,
    List.take_of_length_le hlength]

/-- Whatever parts the bytes come in, a read takes exactly the next ones if there are as many, and
else it goes to the end. -/
theorem OnOffset.readExact (hf : OnOffset bs k f) (n : Nat) : ∃ f', f.readExact n =
    (if k + n ≤ bs.length then .ok ((bs.drop k).take n) else .error .ended, f') ∧
      OnOffset bs (min (k + n) bs.length) f' := by
  induction n using Nat.strongRecOn generalizing k f with
  | ind n ih =>
    have hk := hf.le
    rw [readExact]
    by_cases hn : n = 0
    · subst hn
      rw [if_pos rfl, if_pos (show k + 0 ≤ bs.length from hk), Nat.add_zero, Nat.min_eq_left hk]
      exact ⟨f, rfl, hf⟩
    · rw [if_neg hn]
      obtain ⟨chunk, f', hrequest, hchunk, hlength, hempty, hf'⟩ := hf.request hn
      rw [hrequest]
      cases chunk with
      | nil =>
        have hend := hempty rfl
        rw [if_neg (by omega), Nat.min_eq_right (by omega)]
        exact ⟨f', rfl, hend ▸ hf'⟩
      | cons b chunk =>
        -- the part that has come is left out of what is still asked for
        have hsum : k + (b :: chunk).length + (n - (b :: chunk).length) = k + n := by omega
        have hless : n - (b :: chunk).length < n := by
          rw [List.length_cons]
          omega
        obtain ⟨last, hread, hlast⟩ := ih _ hless hf'
        rw [hsum] at hread hlast
        rw [List.length_cons] at hread
        refine ⟨last, ?_, hlast⟩
        simp only [hread]
        by_cases hle : k + n ≤ bs.length
        · simp only [if_pos hle, take_of_part hchunk hlength, List.length_cons]
        · simp only [if_neg hle]

end OpenFile

namespace FileReader

/-- The readers of an open file that holds `bs`. -/
def OnOffset (path : Path) (bs : Bytes) (k : Nat) (r : FileReader) : Prop :=
  ∃ f, r = { path, handle := some f } ∧ f.OnOffset bs k

theorem slices (path : Path) (bs : Bytes) : Reader.Slices path bs (OnOffset path bs) where
  le := by
    rintro k _ ⟨f, -, hf⟩
    exact hf.le
  size := by
    rintro k _ ⟨f, rfl, hf⟩
    show Except.ok f.size = _
    simp [OpenFile.size, hf.node]
  reset := by
    rintro k _ ⟨f, rfl, hf⟩
    exact ⟨_, rfl, _, rfl, hf.node, rfl, Nat.zero_le _⟩
  read := by
    rintro k _ n ⟨f, rfl, hf⟩ hn
    obtain ⟨f', hread, hf'⟩ := hf.readExact n
    rw [if_pos hn] at hread
    rw [Nat.min_eq_left hn] at hf'
    refine ⟨{ path, handle := some f' }, ?_, f', rfl, hf'⟩
    show FileReader.read n _ = _
    simp [FileReader.read, hread]
  beyond := by
    rintro k _ n ⟨f, rfl, hf⟩ hn
    obtain ⟨f', hread, hf'⟩ := hf.readExact n
    rw [if_neg (Nat.not_le.2 hn)] at hread
    rw [Nat.min_eq_right (Nat.le_of_lt hn)] at hf'
    refine ⟨{ path, handle := some f' }, ?_, f', rfl, hf'⟩
    show FileReader.read n _ = _
    simp [FileReader.read, hread]
  path := by
    rintro k _ ⟨f, rfl, -⟩
    rfl

/-- An open file holds its bytes. -/
theorem holds {r : FileReader} {path : Path} {bs : Bytes} {k : Nat} (h : OnOffset path bs k r) :
    Reader.Holds r path bs :=
  ⟨OnOffset path bs, (slices path bs).serves, k, h⟩

/-- A closed file fails whatever it is asked for. -/
theorem answers_closed (path : Path) (qs : List Reader.Query) :
    Reader.answers (⟨path, none⟩ : FileReader) qs =
      (qs.map fun _ => .error (.ofCause (.fileClosed path)), ⟨path, none⟩) := by
  induction qs with
  | nil => rfl
  | cons q qs ih =>
    have hq : Reader.answer (⟨path, none⟩ : FileReader) q =
        (.error (.ofCause (.fileClosed path)), ⟨path, none⟩) := by
      cases q <;> rfl
    rw [Reader.answers, hq, ih]
    rfl

end FileReader

namespace Reader

/-- An open file and a source in memory with the same bytes and path give the same answers to the
same queries, whatever the parts that the file comes in: slices of the bytes, one after another
until a reset, and no failure in reading no bytes. Closed once or more often, the file fails with an
input error whatever it is asked for, and the source in memory answers as one of no bytes. -/
theorem file_answers_as_memory (path : Path) (bs : Bytes) (grant : Nat → Nat → Nat)
    (qs : List Query) :
    let file : FileReader := ⟨path, some { node := .file bs.toArray, grant }⟩
    let memory := MemoryReader.ofBytes bs path
    (answers file qs).1 = sliceAll path bs 0 qs ∧ (answers memory qs).1 = sliceAll path bs 0 qs ∧
      (.reset ∉ qs → (sliceAll path bs 0 qs).flatMap Reply.bytesOf <+: bs) ∧
      (∀ i : Nat, qs[i]? = some (.read 0) →
        (sliceAll path bs 0 qs)[i]? = some (.ok (.bytes []))) ∧
      (Error.ofCause (.fileClosed path)).code = .io ∧ ∀ (n : Nat) (more : List Query),
        (answers (close^[n + 1] (answers file qs).2) more).1 =
          more.map (fun _ => .error (.ofCause (.fileClosed path))) ∧
        (answers (close^[n + 1] (answers memory qs).2) more).1 =
          (answers (MemoryReader.ofBytes [] path) more).1 := by
  intro file memory
  have hfile : FileReader.OnOffset path bs 0 file := ⟨_, rfl, rfl, rfl, Nat.zero_le _⟩
  have hmemory : MemoryReader.OnOffset path bs 0 memory := ⟨rfl, Nat.zero_le _⟩
  obtain ⟨hfanswers, j, f, hfclosed, -⟩ := (FileReader.slices path bs).answers hfile qs
  obtain ⟨hmanswers, k, hmclosed, -⟩ := (MemoryReader.slices path bs).answers hmemory qs
  refine ⟨hfanswers, hmanswers, sliceAll_consecutive path bs,
    fun i => sliceAll_read_zero path (Nat.zero_le _), rfl, fun n more => ⟨?_, ?_⟩⟩
  · have hclosed : close^[n + 1] (answers file qs).2 = ⟨path, none⟩ := by
      rw [hfclosed, Function.iterate_succ_apply]
      exact Function.iterate_fixed rfl n
    rw [hclosed, FileReader.answers_closed]
  · have hclosed : close^[n + 1] (answers memory qs).2 = MemoryReader.ofBytes [] path := by
      rw [hmclosed, Function.iterate_succ_apply]
      exact Function.iterate_fixed rfl n
    rw [hclosed]

end Reader

end Asm6502
