import Asm6502.Lexer
import Asm6502.Proofs.Arena.Contents
import Asm6502.Proofs.Positions
import Asm6502.Reader.Memory

/-!
# From readers to scans

`Reader.Serves` says what it takes for a reader to hold some bytes, of whatever kind it is: at
offset `k` it delivers the `k`-th of them and moves on, behind the last it fails with the end of the
source and stays, and a reset leads back to the first. `Reader.Holds` is a reader of that sort.
`Reader.Delivers` leaves open how the reader fails behind the last byte.

- The marks that a stream collects are its bytes with counted positions (`Stream.drain_marks`), for
  every reader, and all the bytes for a reader that delivers them (`Stream.drain_of_delivers`).
- A lexer over such a reader is decided by the scan of the bytes (`Lexer.ofReader_of_delivers`,
  `Lexer.ofReader_outcome`), over any other one by some scan (`Lexer.ofReader_scan`).
-/

namespace Asm6502

open Scan (marksFrom)

/-! ## Readers that hold bytes -/

namespace Reader

variable {ρ : Type} [Reader ρ]

/-- Readers that hold `bs`; those on offset `k` satisfy `On k`. -/
structure Serves (path : Path) (bs : Bytes) (On : Nat → ρ → Prop) : Prop where
  path : ∀ {k r}, On k r → Reader.path r = path
  size : ∀ {k r}, On k r → Reader.size r = .ok bs.length
  reset : ∀ {k r}, On k r → ∃ r', Reader.reset r = (.ok (), r') ∧ On 0 r'
  next : ∀ {k r b}, On k r → bs[k]? = some b → ∃ r', readByte r = (.ok b, r') ∧ On (k + 1) r'
  ending : ∀ {k r}, On k r → bs[k]? = none →
    ∃ e r', readByte r = (.error e, r') ∧ e.code = .endOfFile ∧ On k r'

/-- Readers that deliver `bs` after each reset and then fail, each time with an error that `Ending`
is true of; those on offset `k` satisfy `On k`. The size that they report may be another. -/
structure Delivers (path : Path) (bs : Bytes) (Ending : Error → Prop) (On : Nat → ρ → Prop) :
    Prop where
  path : ∀ {k r}, On k r → Reader.path r = path
  size : ∀ {k r}, On k r → ∃ n, Reader.size r = .ok (n + 1)
  reset : ∀ {k r}, On k r → ∃ r', Reader.reset r = (.ok (), r') ∧ On 0 r'
  next : ∀ {k r b}, On k r → bs[k]? = some b → ∃ r', readByte r = (.ok b, r') ∧ On (k + 1) r'
  ending : ∀ {k r}, On k r → bs[k]? = none →
    ∃ e r', readByte r = (.error e, r') ∧ Ending e ∧ On k r'

theorem Serves.delivers {path : Path} {bs : Bytes} {On : Nat → ρ → Prop} (h : Serves path bs On)
    (hne : bs ≠ []) : Delivers path bs (·.code = .endOfFile) On where
  path := h.path
  size hk := by
    obtain ⟨b, bs, rfl⟩ := List.exists_cons_of_ne_nil hne
    exact ⟨bs.length, h.size hk⟩
  reset := h.reset
  next := h.next
  ending := h.ending

/-- A reader over `bs`, wherever its cursor stands. -/
def Holds (r : ρ) (path : Path) (bs : Bytes) : Prop :=
  ∃ On : Nat → ρ → Prop, Serves path bs On ∧ ∃ k, On k r

end Reader

namespace MemoryReader

theorem readByte_of_some {r : MemoryReader} {b : UInt8} (h : r.data[r.offset]? = some b) :
    Reader.readByte r = (.ok b, { r with offset := r.offset + 1 }) := by
  obtain ⟨hlt, rfl⟩ := Array.getElem?_eq_some_iff.1 h
  have hle : r.offset + 1 ≤ r.data.size := hlt
  have hread : Reader.read 1 r = (.ok [r.data[r.offset]], { r with offset := r.offset + 1 }) := by
    show MemoryReader.read 1 r = _
    have hdrop := List.drop_eq_getElem_cons (l := r.data.toList) (i := r.offset)
      (by simpa using hlt)
    simp [MemoryReader.read, hle, hdrop]
  simp [Reader.readByte, hread]

theorem readByte_of_none {r : MemoryReader} (h : r.data[r.offset]? = none) :
    Reader.readByte r =
      (.error (.ofCause (.endOfFile r.path)), { r with offset := r.data.size }) := by
  have hlt : ¬ r.offset + 1 ≤ r.data.size := by
    have := Array.getElem?_eq_none_iff.1 h
    omega
  have hread : Reader.read 1 r = (.error (.ofCause (.endOfFile r.path)),
      { r with offset := r.data.size }) := by
    show MemoryReader.read 1 r = _
    simp [MemoryReader.read, hlt]
  simp [Reader.readByte, hread]

/-- A source in memory holds its data. -/
theorem holds (bs : Bytes) (path : Path) : Reader.Holds (ofBytes bs path) path bs := by
  let On : Nat → MemoryReader → Prop := fun k r =>
    r = { path, data := bs.toArray, offset := k } ∧ k ≤ bs.length
  refine ⟨On, ?_, 0, rfl, Nat.zero_le _⟩
  constructor
  · rintro k _ ⟨rfl, -⟩
    rfl
  · rintro k _ ⟨rfl, -⟩
    rfl
  · rintro k _ ⟨rfl, -⟩
    exact ⟨_, rfl, rfl, Nat.zero_le _⟩
  · rintro k _ b ⟨rfl, -⟩ hb
    have hk := (List.getElem?_eq_some_iff.1 hb).1
    exact ⟨_, readByte_of_some (by simpa using hb), rfl, hk⟩
  · rintro k _ ⟨rfl, hk⟩ hb
    obtain rfl : bs.length = k := Nat.le_antisymm (List.getElem?_eq_none_iff.1 hb) hk
    exact ⟨_, _, readByte_of_none (by simp), rfl, rfl, hk⟩

end MemoryReader

/-! ## Draining a stream -/

namespace Stream

variable {ρ : Type} [Reader ρ]

theorem next_of_ok {s : Stream ρ} {b : UInt8} {r : ρ} (h : Reader.readByte s.reader = (.ok b, r)) :
    s.next = (.ok (), { reader := r, byte := b, pos := s.pos.after s.byte }) := by
  simp [next, h]

theorem next_of_error {s : Stream ρ} {e : Error} {r : ρ}
    (h : Reader.readByte s.reader = (.error e, r)) :
    s.next = (.error e, { s with reader := r }) := by
  simp [next, h]

theorem drain_of_next_ok {s t : Stream ρ} (h : s.next = (.ok (), t)) :
    s.drain = (⟨s.mark, t.drain.1.marks, t.drain.1.ending⟩, t.drain.2) := by
  rw [drain]
  split
  · rename_i t' h'
    obtain rfl : t' = t := by simpa using h'.symm.trans h
    rfl
  · rename_i h'
    simp [h] at h'

theorem drain_of_next_error {s t : Stream ρ} {e : Error} (h : s.next = (.error e, t)) :
    s.drain = (⟨s.mark, [], e⟩, t) := by
  rw [drain]
  split
  · rename_i h'
    simp [h] at h'
  · rename_i h'
    obtain ⟨rfl, rfl⟩ : _ = e ∧ _ = t := by simpa using h'.symm.trans h
    rfl

theorem pos_of_next_ok {s t : Stream ρ} (h : s.next = (.ok (), t)) :
    t.pos = s.pos.after s.byte := by
  unfold next at h
  split at h
  · obtain ⟨-, rfl⟩ := Prod.mk.inj h
    rfl
  · simp at h

/-- Whatever the reader, the marks of a tape are its bytes with counted positions. -/
theorem drain_marks (s : Stream ρ) : ∃ bs, s.drain.1.marks = marksFrom s.pos (s.byte :: bs) := by
  induction s using drain.induct with
  | case1 s t h tape last hd ih =>
    obtain ⟨bs, hbs⟩ := ih
    refine ⟨t.byte :: bs, ?_⟩
    rw [drain_of_next_ok h, Tape.marks, hbs, pos_of_next_ok h]
    rfl
  | case2 s e t h =>
    refine ⟨[], ?_⟩
    rw [drain_of_next_error h]
    rfl

section

variable {path : Path} {b : UInt8} {bs : Bytes} {Ending : Error → Prop} {On : Nat → ρ → Prop}
  {k : Nat}

theorem drain_of_delivers (hr : Reader.Delivers path bs Ending On) {s : Stream ρ}
    (hs : On k s.reader) :
    ∃ tape last, s.drain = (tape, last) ∧
      tape.marks = s.mark :: marksFrom (s.pos.after s.byte) (bs.drop k) ∧ Ending tape.ending ∧
      ∃ j, On j last.reader := by
  generalize hm : bs.drop k = now
  induction now generalizing k s with
  | nil =>
    obtain ⟨e, r, hread, he, hr'⟩ := hr.ending hs (by simpa using hm)
    exact ⟨_, _, drain_of_next_error (next_of_error hread), rfl, he, k, hr'⟩
  | cons b now ih =>
    have hb : bs[k]? = some b := by rw [← List.head?_drop, hm]; rfl
    obtain ⟨r, hread, hr'⟩ := hr.next hs hb
    have hnow : bs.drop (k + 1) = now := by rw [← List.tail_drop, hm]; rfl
    obtain ⟨tape, last, hd, htape, he, hlast⟩ := ih (s := ⟨r, b, s.pos.after s.byte⟩) hr' hnow
    refine ⟨⟨s.mark, tape.marks, tape.ending⟩, last, ?_, congrArg (s.mark :: ·) htape, he, hlast⟩
    rw [drain_of_next_ok (next_of_ok hread), hd]

theorem reset_of_delivers (hr : Reader.Delivers path (b :: bs) Ending On) {s : Stream ρ}
    (hs : On k s.reader) : ∃ r, s.reset = (.ok (), ⟨r, b, .start⟩) ∧ On 1 r := by
  obtain ⟨r, hreset, hr0⟩ := hr.reset hs
  obtain ⟨r', hread, hr1⟩ := hr.next hr0 rfl
  exact ⟨r', by simp [reset, hreset, hread], hr1⟩

theorem ofReader_of_delivers (hr : Reader.Delivers path (b :: bs) Ending On) {r : ρ}
    (hk : On k r) : ∃ r', ofReader r = .ok ⟨r', b, .start⟩ ∧ On 1 r' := by
  obtain ⟨n, hsize⟩ := hr.size hk
  obtain ⟨r', hreset, hr'⟩ := reset_of_delivers hr (s := ⟨r, Ascii.nul, .start⟩) hk
  refine ⟨r', ?_, hr'⟩
  simp [ofReader, hsize, hreset]

end

end Stream

/-! ## Lexers of readers that deliver bytes -/

/-- What a scan comes to: its tokens with the final one, or its error. -/
def Scan.outcome (s : Scan) : Except Error (List Token) :=
  match s.error? with
  | none => .ok (s.tokens ++ [.finish])
  | some e => .error e

namespace Lexer

variable {ρ : Type} [Reader ρ] {r : ρ} {path : Path} {bs : Bytes}

/-- A lexer is decided by the scan of the bytes that its reader delivers: it fails as the scan does,
or has all tokens, stands on the first, and has its stream rewound. -/
theorem ofReader_of_delivers {Ending : Error → Prop} {On : Nat → ρ → Prop} {k : Nat}
    (hr : Reader.Delivers path bs Ending On) (hk : On k r) (hne : bs ≠ []) :
    ∃ e scan, Ending e ∧ scan = Scan.ofMarks path (if e.code = .endOfFile then none else some e)
        (marksFrom .start bs) ∧
      (∀ f, scan.error? = some f → ofReader r = (.error f, scan.tokens.map .emitted)) ∧
      (scan.error? = none → ∃ s : Stream ρ, s.mark = ⟨bs.head hne, .start⟩ ∧ On 1 s.reader ∧
        ofReader r = (.ok ⟨s, .ofList (scan.tokens ++ [Token.finish]), 0,
            (Arena.ofList (scan.tokens ++ [Token.finish])).head⟩,
          (scan.tokens ++ [Token.finish]).map .emitted ++
            [.tokenized path (scan.tokens.length + 1), .rewound path])) := by
  obtain ⟨b, bs, rfl⟩ := List.exists_cons_of_ne_nil hne
  obtain ⟨r', hr', hr1⟩ := Stream.ofReader_of_delivers hr hk
  obtain ⟨tape, last, hd, htape, he, j, hj⟩ :=
    Stream.drain_of_delivers hr (s := ⟨r', b, .start⟩) hr1
  have hpath : last.path = path := hr.path hj
  have hscan : Scan.ofMarks last.path tape.fault? tape.marks = Scan.ofMarks path
      (if tape.ending.code = .endOfFile then none else some tape.ending)
      (marksFrom .start (b :: bs)) := by
    rw [hpath, htape]
    rfl
  refine ⟨tape.ending, _, he, rfl, ?_⟩
  generalize Scan.ofMarks path _ _ = scan at hscan
  refine ⟨fun f hf => by simp [ofReader, hr', ofStream, hd, hscan, hf], fun hnone => ?_⟩
  obtain ⟨r'', hreset, hr''⟩ := Stream.reset_of_delivers hr hj
  rw [hpath] at hscan
  refine ⟨⟨r'', b, .start⟩, rfl, hr'', ?_⟩
  obtain ⟨es, hes, hvs⟩ := Arena.holds_ofList (scan.tokens ++ [Token.finish])
  have hsize : size (⟨last, .ofList (scan.tokens ++ [Token.finish]), 0, none⟩ : Lexer ρ) =
      scan.tokens.length + 1 := by
    rw [size, hes.size, ← List.length_map (·.2), hvs]
    simp
  have hpath' : Stream.path (⟨r'', b, .start⟩ : Stream ρ) = path := hr.path hr''
  simp [ofReader, hr', ofStream, hd, hscan, hnone, reset, hreset, hpath, hpath', hsize]

theorem ofReader_of_empty (hr : Reader.Holds r path []) :
    ofReader r = (.error (.ofCause (.emptyFile path)), []) := by
  obtain ⟨On, hserves, k, hk⟩ := hr
  have hstream : Stream.ofReader r = .error (.ofCause (.emptyFile path)) := by
    rw [Stream.ofReader, hserves.size hk, ← hserves.path hk]
    rfl
  rw [ofReader, hstream]

theorem ofReader_of_error (hr : Reader.Holds r path bs) (hne : bs ≠ []) {e : Error}
    (he : (Scan.ofBytes path bs).error? = some e) :
    ofReader r = (.error e, (Scan.ofBytes path bs).tokens.map .emitted) := by
  obtain ⟨On, hserves, k, hk⟩ := hr
  obtain ⟨f, scan, hf, rfl, herror, -⟩ := ofReader_of_delivers (hserves.delivers hne) hk hne
  rw [if_pos hf] at herror
  exact herror e he

/-- A lexer that was made has all tokens, stands on the first, and has its stream rewound. -/
theorem ofReader_of_no_error (hr : Reader.Holds r path bs) (hne : bs ≠ [])
    (he : (Scan.ofBytes path bs).error? = none) :
    ∃ s : Stream ρ, s.mark = ⟨bs.head hne, .start⟩ ∧ Reader.Holds s.reader path bs ∧
      ofReader r = (.ok ⟨s, .ofList ((Scan.ofBytes path bs).tokens ++ [Token.finish]), 0,
          (Arena.ofList ((Scan.ofBytes path bs).tokens ++ [Token.finish])).head⟩,
        ((Scan.ofBytes path bs).tokens ++ [Token.finish]).map .emitted ++
          [.tokenized path ((Scan.ofBytes path bs).tokens.length + 1), .rewound path]) := by
  obtain ⟨On, hserves, k, hk⟩ := hr
  obtain ⟨f, scan, hf, rfl, -, hok⟩ := ofReader_of_delivers (hserves.delivers hne) hk hne
  rw [if_pos hf] at hok
  obtain ⟨s, hs, hOn, hmade⟩ := hok he
  exact ⟨s, hs, ⟨On, hserves, 1, hOn⟩, hmade⟩

theorem ofReader_outcome (hr : Reader.Holds r path bs) (hne : bs ≠ []) :
    (ofReader r).1.map (·.tokens.toList) = (Scan.ofBytes path bs).outcome := by
  unfold Scan.outcome
  split
  · rename_i he
    obtain ⟨s, -, -, hl⟩ := ofReader_of_no_error hr hne he
    rw [hl]
    simp [Except.map, Arena.toList_ofList]
  · rename_i e he
    rw [ofReader_of_error hr hne he]
    rfl

/-! ## Lexers of any reader -/

theorem pos_of_ofReader {r : ρ} {s : Stream ρ} (h : Stream.ofReader r = .ok s) :
    s.pos = .start := by
  unfold Stream.ofReader at h
  split at h
  · cases h
  · cases h
  · split at h
    · rename_i s' hreset
      obtain rfl := Except.ok.inj h
      unfold Stream.reset at hreset
      split at hreset
      · simp at hreset
      · split at hreset
        · simp at hreset
        · obtain ⟨-, rfl⟩ := Prod.mk.inj hreset
          rfl
    · cases h

/-- Rewinding keeps the tokens and reports none. -/
theorem reset_tokens (l : Lexer ρ) :
    l.reset.1.2.tokens = l.tokens ∧ ∀ t, .emitted t ∉ l.reset.2 := by
  unfold reset
  split
  · exact ⟨rfl, by simp⟩
  · exact ⟨rfl, by simp⟩

/-- Whatever its reader does, a lexer reports and keeps what some scan gives. -/
theorem ofReader_scan (r : ρ) : ∃ source fault? bs,
    let tokens := (Scan.ofMarks source fault? (marksFrom .start bs)).tokens ++ [.finish]
    (∀ t, .emitted t ∈ (ofReader r).2 → t ∈ tokens) ∧
      ∀ l, (ofReader r).1 = .ok l → l.tokens.toList = tokens := by
  cases hs : Stream.ofReader r with
  | error e => exact ⟨Reader.path r, none, [], by simp [ofReader, hs], by simp [ofReader, hs]⟩
  | ok s =>
    obtain ⟨bs, hbs⟩ := s.drain_marks
    rw [pos_of_ofReader hs] at hbs
    refine ⟨s.drain.2.path, s.drain.1.fault?, s.byte :: bs, ?_⟩
    rw [← hbs]
    simp only [ofReader, hs, ofStream]
    generalize Scan.ofMarks s.drain.2.path s.drain.1.fault? s.drain.1.marks = scan
    split
    · exact ⟨by simp +contextual, by simp⟩
    · obtain ⟨htokens, hev⟩ :=
        reset_tokens (ρ := ρ) ⟨s.drain.2, .ofList (scan.tokens ++ [.finish]), 0, none⟩
      split
      · rename_i l ev hreset
        rw [hreset] at htokens hev
        refine ⟨?_, ?_⟩
        · intro t ht
          simpa [hev t] using ht
        · intro l' hl
          obtain rfl := Except.ok.inj hl
          rw [htokens, Arena.toList_ofList]
      · rename_i e l ev hreset
        rw [hreset] at hev
        refine ⟨?_, by simp⟩
        intro t ht
        simpa [hev t] using ht

end Lexer

end Asm6502
