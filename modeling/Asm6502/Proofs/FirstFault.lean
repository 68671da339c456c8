import Asm6502.Proofs.Joining
import Mathlib.Data.List.Induction

/-!
# The first fault

A scan that fails stops at the first lexeme with a fault and names the byte where that lexeme
starts (`Grammar.Derives.first_fault`). The position leads back to the offset of that byte
(`Position.offset_past`), and there the source can be cut: what stands before comes to the tokens
that were reported, and what stands behind fails in the same way at its own first byte.
-/

namespace Asm6502

open Position (past)

/-! ## Offsets -/

/-- The offset of a line, counted from zero: behind as many line feeds. -/
def lineStart : Nat → Bytes → Nat
  | 0, _ => 0
  | _ + 1, [] => 0
  | n + 1, b :: bs => lineStart (if b = Ascii.lineFeed then n else n + 1) bs + 1

/-- The offset of the byte at a position. -/
def Position.offset (p : Position) (bs : Bytes) : Nat :=
  lineStart (p.line.toNat - 1) bs + p.column.toNat

theorem lineStart_below (above bs : Bytes) :
    lineStart (above.count Ascii.lineFeed + 1) (above ++ Ascii.lineFeed :: bs) =
      above.length + 1 := by
  induction above with
  | nil => simp [lineStart]
  | cons b above ih =>
    by_cases hb : b = Ascii.lineFeed
    · subst hb
      simpa [lineStart] using ih
    · simpa [lineStart, hb] using ih

/-- A byte stands behind the start of its line as many bytes as its line has before it. -/
theorem lineStart_count (before now : Bytes) :
    lineStart (before.count Ascii.lineFeed) (before ++ now) + Position.lastLine before =
      before.length := by
  induction before using List.reverseRecOn generalizing now with
  | nil => simp [lineStart, Position.lastLine]
  | append_singleton before b ih =>
    rw [List.append_assoc, List.singleton_append, List.count_append]
    by_cases hb : b = Ascii.lineFeed
    · subst hb
      rw [Position.lastLine_append_lineFeed, List.count_singleton_self, lineStart_below]
      simp [Position.lastLine]
    · have hlast : Position.lastLine (before ++ [b]) = Position.lastLine before + 1 := by
        simp [Position.lastLine, hb]
      have hcount : [b].count Ascii.lineFeed = 0 := by simp [hb]
      have := ih (b :: now)
      rw [hlast, hcount, Nat.add_zero, List.length_append, List.length_singleton]
      omega

theorem Position.offset_past {before : Bytes} (h : before.length < 0xffffffff) (now : Bytes) :
    (past before).offset (before ++ now) = before.length := by
  have hlines : before.count Ascii.lineFeed ≤ before.length := List.count_le_length
  have hcolumn : lastLine before ≤ before.length := by
    have := lineStart_count before now
    omega
  simp only [offset, past, toNat_saturate]
  rw [Nat.min_eq_left (by omega), Nat.min_eq_left (by omega), Nat.add_sub_cancel,
    lineStart_count]

namespace Grammar

variable {source : Path} {before now lex rest : Bytes} {sense : Sense} {ts : List Token}
  {e : Error} {p : UInt8 → Bool}

/-! ## Cutting a source -/

theorem Ends.of_append {bs : Bytes} (h : Ends p (rest ++ bs)) : Ends p rest := by
  cases rest with
  | nil => exact Ends.nil
  | cons b rest => exact ends_cons.2 (ends_cons.1 h)

/-- A lexeme stays one if less follows it. -/
theorem Munch.of_append {bs : Bytes} (h : Munch lex (rest ++ bs) sense) : Munch lex rest sense := by
  rcases h.follow with hany | ⟨hrest, hline⟩
  · exact hany _ fun p _ _ hrest => hrest.of_append
  · exact (hline _ hrest.of_append).1

/-- A scan fails at a lexeme with a fault, and what stands before it comes to the same tokens.
What each lexeme without a fault keeps is true where the scan fails. -/
theorem Derives.first_fault_keeping {Q : Bytes → Bytes → Prop}
    (hQ : ∀ before lex rest sense, Munch lex rest sense → (∀ cause, sense ≠ .fault cause) →
      Q before (lex ++ rest) → Q (before ++ lex) rest)
    (h : Derives source before now ⟨ts, some e⟩) (hq : Q before now) :
    ∃ head lex rest cause, now = head ++ (lex ++ rest) ∧ Derives source before head ⟨ts, none⟩ ∧
      Munch lex rest (.fault cause) ∧
      e = (Error.ofCause cause).locate source (past (before ++ head)) ∧
      Q (before ++ head) (lex ++ rest) := by
  generalize hs : (⟨ts, some e⟩ : Scan) = s at h
  induction h generalizing ts with
  | done => cases hs
  | @blank before lex rest s hm _ ih =>
    obtain ⟨head, lex', rest', cause, rfl, hd, hm', rfl, hq⟩ :=
      ih (hQ _ _ _ _ hm (by simp) hq) hs
    refine ⟨lex ++ head, lex', rest', cause, (List.append_assoc ..).symm, ?_, hm', ?_, ?_⟩
    · exact .blank hm.of_append hd
    · rw [List.append_assoc]
    · rwa [← List.append_assoc]
  | @item before lex rest i s hm _ ih =>
    obtain ⟨ts', e'⟩ := s
    obtain ⟨rfl, rfl⟩ := Scan.mk.inj hs
    obtain ⟨head, lex', rest', cause, rfl, hd, hm', rfl, hq⟩ :=
      ih (hQ _ _ _ _ hm (by simp) hq) rfl
    refine ⟨lex ++ head, lex', rest', cause, (List.append_assoc ..).symm, ?_, hm', ?_, ?_⟩
    · exact .item hm.of_append hd
    · rw [List.append_assoc]
    · rwa [← List.append_assoc]
  | @fault before lex rest cause hm =>
    obtain ⟨rfl, he⟩ := Scan.mk.inj hs
    refine ⟨[], lex, rest, cause, rfl, .done, hm, ?_, ?_⟩
    · rw [List.append_nil]
      exact Option.some.inj he
    · rwa [List.append_nil]

theorem Derives.first_fault (h : Derives source before now ⟨ts, some e⟩) :
    ∃ head lex rest cause, now = head ++ (lex ++ rest) ∧ Derives source before head ⟨ts, none⟩ ∧
      Munch lex rest (.fault cause) ∧
      e = (Error.ofCause cause).locate source (past (before ++ head)) := by
  obtain ⟨head, lex, rest, cause, hnow, hd, hm, he, -⟩ :=
    h.first_fault_keeping (Q := fun _ _ => True) (fun _ _ _ _ _ _ _ => trivial) trivial
  exact ⟨head, lex, rest, cause, hnow, hd, hm, he⟩

end Grammar

namespace Lexer

open Grammar (Derives)

variable {path : Path} {bs : Bytes} {e : Error}

/-- A lexer fails at its first fault. The position of the error is that of a byte; the bytes before
it come to the tokens that were reported, and nothing else was; the bytes from there on fail with
the same cause at their start. -/
theorem fails_at_first_fault (hsize : bs.length < 0xffffffff) (he : FailsWith path bs e) :
    ∃ pos, e.place = some ⟨path, pos⟩ ∧ pos.offset bs < bs.length ∧
      (∃ ts, LexesTo path (bs.take (pos.offset bs)) ts ∧
        (ofReader (MemoryReader.ofBytes bs path)).2 = ts.map .emitted) ∧
      FailsWith path (bs.drop (pos.offset bs)) (e.locate path .start) := by
  obtain ⟨ts, hd⟩ := failsWith_iff.1 he
  have hscan : Scan.ofBytes path bs = ⟨ts, some e⟩ := hd.scan_eq
  obtain ⟨head, lex, rest, cause, rfl, hhead, hm, rfl⟩ := hd.first_fault
  have hlex : 0 < lex.length := List.length_pos_iff.2 hm.ne_nil
  rw [List.length_append, List.length_append] at hsize
  have hoffset : (past head).offset (head ++ (lex ++ rest)) = head.length :=
    Position.offset_past (by omega) _
  refine ⟨past head, rfl, ?_, ⟨ts, ?_, ?_⟩, ?_⟩
  · rw [hoffset, List.length_append, List.length_append]
    omega
  · rw [hoffset, List.take_left]
    exact lexesTo_iff.2 hhead
  · have hne : head ++ (lex ++ rest) ≠ [] := by simp [hm.ne_nil]
    rw [ofReader_of_error (MemoryReader.holds _ path) hne (by rw [hscan])]
    rw [hscan]
  · rw [hoffset, List.drop_left]
    exact failsWith_iff.2 ⟨[], .fault hm⟩

/-- A string without an end, on the second line behind a register. -/
theorem fails_at_first_fault_string :
    let bs : Bytes := [0x58, Ascii.lineFeed, 0x59, Ascii.space, Ascii.quote, 0x5a]
    let e := (Error.ofCause .unterminatedLiteral).locate ⟨"x.s"⟩ ⟨2, 2⟩
    FailsWith ⟨"x.s"⟩ bs e ∧ (∃ ts, LexesTo ⟨"x.s"⟩ (bs.take 4) ts ∧
      (ofReader (MemoryReader.ofBytes bs ⟨"x.s"⟩)).2 = ts.map .emitted) ∧
      FailsWith ⟨"x.s"⟩ (bs.drop 4) (e.locate ⟨"x.s"⟩ .start) := by
  intro bs e
  have he : FailsWith ⟨"x.s"⟩ bs e := ⟨rfl, by decide +kernel⟩
  obtain ⟨pos, hpos, -, htokens, hrest⟩ := fails_at_first_fault (by decide) he
  obtain rfl : ⟨2, 2⟩ = pos := congrArg Place.position (Option.some.inj hpos)
  have hoffset : Position.offset ⟨2, 2⟩ bs = 4 := by decide
  rw [hoffset] at htokens hrest
  exact ⟨he, htokens, hrest⟩

end Lexer

end Asm6502
