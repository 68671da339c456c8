import Asm6502.Proofs.Continuation
import Asm6502.Proofs.Joining
import Asm6502.Reader.Faulty

/-!
# Sources that break off

A reader that breaks at an offset delivers the bytes before it and no others (`Reader.BreaksAt`).

- If it fails there with the end of the source, those bytes are the source.
- If it fails in another way, no lexer is made of it. A lexical error is reported only if no
  continuation of the bytes avoids it (`Lexer.Doomed`); otherwise the failure itself is.
-/

namespace Asm6502

open Scan (marksFrom)

/-! ## Readers that break -/

namespace Reader

variable {ρ : Type} [Reader ρ]

/-- Readers that hold `bs`, but fail with `e` and stay when the byte at offset `n` is asked for;
those on offset `k` satisfy `On k`. -/
structure Breaks (path : Path) (bs : Bytes) (n : Nat) (e : Error) (On : Nat → ρ → Prop) :
    Prop where
  path : ∀ {k r}, On k r → Reader.path r = path
  size : ∀ {k r}, On k r → Reader.size r = .ok bs.length
  reset : ∀ {k r}, On k r → ∃ r', Reader.reset r = (.ok (), r') ∧ On 0 r'
  next : ∀ {k r b}, On k r → k ≠ n → bs[k]? = some b →
    ∃ r', readByte r = (.ok b, r') ∧ On (k + 1) r'
  failing : ∀ {r}, On n r → ∃ r', readByte r = (.error e, r') ∧ On n r'

/-- A reader over `bs` that breaks at offset `n`, with its cursor before the break. -/
def BreaksAt (r : ρ) (path : Path) (bs : Bytes) (n : Nat) (e : Error) : Prop :=
  ∃ On : Nat → ρ → Prop, Breaks path bs n e On ∧ ∃ k ≤ n, On k r

/-- A reader that breaks delivers what stands before the break. -/
theorem Breaks.delivers {path : Path} {bs : Bytes} {n : Nat} {e : Error} {On : Nat → ρ → Prop}
    (h : Breaks path bs n e On) (hn : 1 ≤ n) (hle : n ≤ bs.length) :
    Delivers path (bs.take n) (· = e) fun k r => k ≤ n ∧ On k r where
  path hk := h.path hk.2
  size hk := ⟨bs.length - 1, by rw [h.size hk.2, Nat.sub_add_cancel (by omega)]⟩
  reset hk := by
    obtain ⟨r', hreset, hr'⟩ := h.reset hk.2
    exact ⟨r', hreset, Nat.zero_le n, hr'⟩
  next := by
    rintro k r b ⟨-, hk⟩ hb
    have hlt : k < n := by
      have := (List.getElem?_eq_some_iff.1 hb).1
      rw [List.length_take] at this
      omega
    rw [List.getElem?_take_of_lt hlt] at hb
    obtain ⟨r', hread, hr'⟩ := h.next hk (by omega) hb
    exact ⟨r', hread, hlt, hr'⟩
  ending := by
    rintro k r ⟨hkn, hk⟩ hb
    have hlength : n ≤ k := by simpa [hle] using hb
    obtain rfl : k = n := Nat.le_antisymm hkn hlength
    obtain ⟨r', hread, hr'⟩ := h.failing hk
    exact ⟨e, r', hread, rfl, hkn, hr'⟩

end Reader

namespace FaultyReader

theorem readByte_eq (r : FaultyReader) : Reader.readByte r = r.byte := by
  have hread : Reader.read 1 r = FaultyReader.read 1 r := rfl
  rw [Reader.readByte, hread, FaultyReader.read]
  rcases r.byte with ⟨e | b, r⟩ <;> rfl

/-- A source in memory with a bad offset breaks there. -/
theorem breaksAt (path : Path) (bs : Bytes) (n : Nat) (e : Error) :
    Reader.BreaksAt ({ path, data := bs.toArray, badOffset := some (n, e) } : FaultyReader)
      path bs n e := by
  let On : Nat → FaultyReader → Prop := fun k r => ∃ resets,
    r = { path, data := bs.toArray, offset := k, badOffset := some (n, e), resets }
  refine ⟨On, ?_, 0, Nat.zero_le n, 0, rfl⟩
  constructor
  · rintro k _ ⟨resets, rfl⟩
    rfl
  · rintro k _ ⟨resets, rfl⟩
    rfl
  · rintro k _ ⟨resets, rfl⟩
    exact ⟨_, rfl, resets + 1, rfl⟩
  · rintro k _ b ⟨resets, rfl⟩ hk hb
    refine ⟨_, ?_, resets, rfl⟩
    simp [readByte_eq, byte, takeByte, Ne.symm hk, hb]
  · rintro _ ⟨resets, rfl⟩
    exact ⟨_, by simp [readByte_eq, byte], resets, rfl⟩

end FaultyReader

theorem Scan.marksFrom_append (pos : Position) (bs cs : Bytes) :
    marksFrom pos (bs ++ cs) = marksFrom pos bs ++ marksFrom (pos.walk bs) cs := by
  induction bs generalizing pos with
  | nil => rfl
  | cons b bs ih =>
    rw [List.cons_append, marksFrom, ih, Position.walk_cons]
    rfl

/-! ## Lexers of readers that break -/

namespace Lexer

variable {ρ : Type} [Reader ρ] {r : ρ} {path : Path} {bs : Bytes} {n : Nat} {e f : Error}

/-- All of a lexer but its reader. -/
def contents (l : Lexer ρ) : Path × Arena Token × Nat × Option Handle × Mark :=
  (l.source, l.tokens, l.index, l.cursor, l.stream.mark)

/-- Whatever follows the bytes, making a lexer fails with `e`. -/
def Doomed (path : Path) (bs : Bytes) (e : Error) : Prop :=
  ∀ whole, bs <+: whole → FailsWith path whole e

theorem failsWith_iff_scan : FailsWith path bs e ↔ (Scan.ofBytes path bs).error? = some e := by
  simp only [failsWith_iff, Grammar.derives_iff, Position.past_nil]
  constructor
  · rintro ⟨ts, h⟩
    rw [Scan.ofBytes, h]
  · intro h
    exact ⟨(Scan.ofBytes path bs).tokens, by rw [← h]; rfl⟩

theorem Doomed.unique (hf : Doomed path bs f) (he : Doomed path bs e) : f = e := by
  have hf := failsWith_iff_scan.1 (hf bs (List.prefix_refl bs))
  have he := failsWith_iff_scan.1 (he bs (List.prefix_refl bs))
  exact Option.some.inj (hf.symm.trans he)

/-- A scan that a failure cuts off comes to the fault that the bytes are doomed to, or to the
failure if there is none. -/
theorem doomed_or_cut (path : Path) (bs : Bytes) (e : Error) :
    ∃ g, (Scan.ofMarks path (some e) (marksFrom .start bs)).error? = some g ∧
      (Doomed path bs g ∨ g = e ∧ ∀ f, ¬ Doomed path bs f) := by
  rcases Scan.ofMarks_cut path e (marksFrom .start bs) with
    ⟨ts, f, hcut, hwhole⟩ | ⟨hcut, more, hmore⟩
  · refine ⟨f, by rw [hcut], .inl ?_⟩
    rintro _ ⟨more, rfl⟩
    rw [failsWith_iff_scan, Scan.ofBytes, Scan.marksFrom_append, hwhole]
  · refine ⟨e, hcut, .inr ⟨rfl, fun f hf => ?_⟩⟩
    have hbs := failsWith_iff_scan.1 (hf bs (List.prefix_refl bs))
    have happend := failsWith_iff_scan.1 (hf (bs ++ more) (List.prefix_append bs more))
    rw [Scan.ofBytes, Scan.marksFrom_append] at happend
    exact hmore _ f hbs happend

/-- A lexer over a reader that ends with the end of the source has what the same bytes in memory
give. -/
theorem ofReader_eq_of_delivers {Ending : Error → Prop} {On : Nat → ρ → Prop} {k : Nat}
    (hr : Reader.Delivers path bs Ending On) (hk : On k r) (hne : bs ≠ [])
    (hending : ∀ e, Ending e → e.code = .endOfFile) :
    (ofReader r).1.map contents = (ofReader (MemoryReader.ofBytes bs path)).1.map contents ∧
      (ofReader r).2 = (ofReader (MemoryReader.ofBytes bs path)).2 := by
  have hwhole := MemoryReader.holds bs path
  obtain ⟨e, scan, he, hscan, herror, hok⟩ := ofReader_of_delivers hr hk hne
  rw [if_pos (hending e he)] at hscan
  obtain rfl : scan = Scan.ofBytes path bs := hscan
  cases hfault : (Scan.ofBytes path bs).error? with
  | some f =>
    rw [herror f hfault, ofReader_of_error hwhole hne hfault]
    exact ⟨rfl, rfl⟩
  | none =>
    obtain ⟨s, hs, hOn, hmade⟩ := hok hfault
    obtain ⟨s', hs', ⟨On', hserves, j, hOn'⟩, hmade'⟩ := ofReader_of_no_error hwhole hne hfault
    rw [hmade, hmade']
    have hpath : s.path = path := hr.path hOn
    have hpath' : s'.path = path := hserves.path hOn'
    exact ⟨by simp [Except.map, contents, source, hs, hs', hpath, hpath'], rfl⟩

/-- A lexer over a reader that fails in another way is not made. It fails with what the bytes are
doomed to, or as the reader does. -/
theorem ofReader_fails_of_delivers {On : Nat → ρ → Prop} {k : Nat}
    (hr : Reader.Delivers path bs (· = e) On) (hk : On k r) (hne : bs ≠ [])
    (hcode : e.code ≠ .endOfFile) :
    ∃ g, (ofReader r).1 = .error g ∧ (Doomed path bs g ∨ g = e ∧ ∀ f, ¬ Doomed path bs f) := by
  obtain ⟨e', scan, he, hscan, herror, -⟩ := ofReader_of_delivers hr hk hne
  rw [he, if_neg hcode] at hscan
  obtain ⟨g, hg, hdoom⟩ := doomed_or_cut path bs e
  rw [← hscan] at hg
  exact ⟨g, by rw [herror g hg], hdoom⟩

/-- Of a reader that breaks with the end of the source, the lexer is that of the bytes before the
break. Of one that breaks in another way there is none: it fails with the error that the bytes
before the break are doomed to, if there is one, and else as the reader does. -/
theorem ofReader_of_broken (hr : Reader.BreaksAt r path bs n e) (hn : 1 ≤ n)
    (hle : n ≤ bs.length) :
    (e.code = .endOfFile →
      (ofReader r).1.map contents =
          (ofReader (MemoryReader.ofBytes (bs.take n) path)).1.map contents ∧
        (ofReader r).2 = (ofReader (MemoryReader.ofBytes (bs.take n) path)).2) ∧
    (e.code ≠ .endOfFile → (∀ l, (ofReader r).1 ≠ .ok l) ∧ ∀ f, (ofReader r).1 = .error f ↔
      Doomed path (bs.take n) f ∨ f = e ∧ ∀ g, ¬ Doomed path (bs.take n) g) := by
  obtain ⟨On, hbreaks, k, hk, hOn⟩ := hr
  have hdelivers := hbreaks.delivers hn hle
  have hne : bs.take n ≠ [] := by
    intro h
    have := congrArg List.length h
    rw [List.length_take, List.length_nil] at this
    omega
  refine ⟨fun hcode => ?_, fun hcode => ?_⟩
  · exact ofReader_eq_of_delivers hdelivers ⟨hk, hOn⟩ hne fun _ he => he ▸ hcode
  · obtain ⟨g, hg, hdoom⟩ := ofReader_fails_of_delivers hdelivers ⟨hk, hOn⟩ hne hcode
    rw [hg]
    refine ⟨fun l hl => ?_, fun f => ⟨fun h => ?_, fun h => ?_⟩⟩
    · cases hl
    · obtain rfl := Except.error.inj h
      exact hdoom
    · rcases h with hf | ⟨rfl, hnone⟩
      · rcases hdoom with hg | ⟨-, hnone⟩
        · rw [hg.unique hf]
        · exact absurd hf (hnone f)
      · rcases hdoom with hg | ⟨rfl, -⟩
        · exact absurd hg (hnone g)
        · rfl

/-- A string that breaks off before its second quote could still be closed, or not. -/
theorem ofReader_of_broken_string :
    let bs : Bytes := [Ascii.quote, 0x58, Ascii.quote]
    let e := FaultyReader.fault .io "faulty read"
    let r : FaultyReader :=
      { path := ⟨"x.s"⟩, data := bs.toArray, badOffset := some (2, e) }
    Reader.BreaksAt r ⟨"x.s"⟩ bs 2 e ∧ (ofReader r).1 = .error e ∧
      ∀ f, ¬ Doomed ⟨"x.s"⟩ (bs.take 2) f := by
  intro bs e r
  have hr : Reader.BreaksAt r ⟨"x.s"⟩ bs 2 e := FaultyReader.breaksAt ⟨"x.s"⟩ bs 2 e
  have hfails : (ofReader r).1 = .error e := by cbv
  obtain ⟨-, hall⟩ := (ofReader_of_broken hr (by decide) (by decide)).2 (by decide)
  refine ⟨hr, hfails, ?_⟩
  rcases (hall e).1 hfails with hdoom | ⟨-, hnone⟩
  · exact absurd (hdoom bs (List.take_prefix 2 bs)).1 (by decide)
  · exact hnone

end Lexer

end Asm6502
