import Asm6502.Proofs.Acceptance

/-!
# Lines are scanned apart

No lexeme reaches over a line feed, so what stands above one and what stands below it are scanned
as if the other were not there (`Grammar.Derives.join`); only the lines below are counted on from
the lines above (`Grammar.Derives.lower`), as far as there are numbers for them.
-/

namespace Asm6502

open Position (past)

/-! ## Further down -/

/-- The token, `n` lines further down. -/
def Token.lower (n : Nat) (t : Token) : Token := { t with line := Position.lower n t.line }

/-- The error, `n` lines further down in its source. -/
def Error.lower (n : Nat) (e : Error) : Error :=
  { e with place := e.place.map fun p => { p with position := p.position.below n } }

/-- The scan, `n` lines further down. -/
def Scan.lower (n : Nat) (s : Scan) : Scan :=
  ⟨s.tokens.map (Token.lower n), s.error?.map (Error.lower n)⟩

/-- A scan and, unless it fails, another one behind it. -/
def Scan.andThen (s t : Scan) : Scan :=
  match s.error? with
  | none => ⟨s.tokens ++ t.tokens, t.error?⟩
  | some e => ⟨s.tokens, some e⟩

theorem Item.token_line (i : Item) (source : Path) (line : UInt32) :
    (i.token source line).line = line := by
  cases i <;> rfl

theorem Item.token_lower (i : Item) (source : Path) (line : UInt32) (n : Nat) :
    (i.token source line).lower n = i.token source (Position.lower n line) := by
  cases i <;> rfl

theorem Scan.cons_lower (t : Token) (s : Scan) (n : Nat) :
    (s.cons t).lower n = (s.lower n).cons (t.lower n) := rfl

theorem Scan.cons_andThen (t : Token) (s u : Scan) :
    (s.cons t).andThen u = (s.andThen u).cons t := by
  obtain ⟨tokens, _ | e⟩ := s <;> rfl

namespace Grammar

variable {source : Path} {before now lex rest bs : Bytes} {sense : Sense} {s t : Scan}
  {p : UInt8 → Bool}

/-! ## Across a line feed -/

theorem Ends.append (h : Ends p rest) (hp : p Ascii.lineFeed = false) (bs : Bytes) :
    Ends p (rest ++ Ascii.lineFeed :: bs) := by
  cases rest with
  | nil => exact ends_cons.2 hp
  | cons b rest => exact ends_cons.2 (ends_cons.1 h)

/-- A lexeme before the end is a lexeme before a line feed. -/
theorem Munch.append (h : Munch lex rest sense) (bs : Bytes) :
    Munch lex (rest ++ Ascii.lineFeed :: bs) sense := by
  rcases h.follow with hany | ⟨hrest, hline⟩
  · exact hany _ fun p _ hp hrest => hrest.append hp bs
  · exact (hline _ (hrest.append (by decide) bs)).1

/-- What stands above a line feed comes first, and if it does not fail, what stands below. -/
theorem Derives.join (hs : Derives source before now s)
    (ht : Derives source (before ++ now ++ [Ascii.lineFeed]) bs t) :
    Derives source before (now ++ Ascii.lineFeed :: bs) (s.andThen t) := by
  induction hs with
  | done =>
    have hskip : Munch [Ascii.lineFeed] bs .blank := .skip (.inr rfl)
    show Derives source _ ([Ascii.lineFeed] ++ bs) t
    exact .blank hskip (by simpa using ht)
  | blank hm _ ih =>
    rw [List.append_assoc]
    exact .blank (hm.append bs) (ih (by simpa using ht))
  | item hm _ ih =>
    rw [List.append_assoc, Scan.cons_andThen]
    exact .item (hm.append bs) (ih (by simpa using ht))
  | fault hm =>
    rw [List.append_assoc]
    exact .fault (hm.append bs)

/-- More lines above only move the lines below. -/
theorem Derives.lower (h : Derives source before now s) (above : Bytes) :
    Derives source (above ++ Ascii.lineFeed :: before) now
      (s.lower (above.count Ascii.lineFeed + 1)) := by
  induction h with
  | done => exact .done
  | @blank before lex rest _ hm _ ih => exact .blank hm (by simpa using ih)
  | @item before lex rest i _ hm _ ih =>
    rw [Scan.cons_lower, Item.token_lower]
    have hline : (past (above ++ Ascii.lineFeed :: before)).line =
        Position.lower (above.count Ascii.lineFeed + 1) (past before).line := by
      rw [Position.past_below]
      rfl
    rw [← hline]
    exact .item hm (by simpa using ih)
  | @fault before lex rest cause hm =>
    have hpos := Position.past_below above before
    show Derives source _ _ ⟨[], some ((Error.ofCause cause).locate source
      ((past before).below (above.count Ascii.lineFeed + 1)))⟩
    rw [← hpos]
    exact .fault hm

theorem Derives.blanks {b : UInt8} (hb : Ascii.isBlank b = true) {n : Nat}
    (h : Derives source (before ++ List.replicate n b) rest s) :
    Derives source before (List.replicate n b ++ rest) s := by
  induction n generalizing before with
  | zero => simpa using h
  | succ n ih =>
    have hskip : Munch [b] (List.replicate n b ++ rest) .blank := .skip (.inr hb)
    have hrest : Derives source (before ++ [b]) (List.replicate n b ++ rest) s := by
      apply ih
      rwa [List.append_assoc, List.singleton_append, ← List.replicate_succ]
    show Derives source before ([b] ++ (List.replicate n b ++ rest)) s
    exact .blank hskip hrest

/-! ## How far down -/

/-- Tokens and faults stand on lines that there are. -/
theorem Derives.line_le (h : Derives source before now s) :
    (∀ t ∈ s.tokens, t.line.toNat ≤ (before ++ now).count Ascii.lineFeed + 1) ∧
      ∀ e place, s.error? = some e → e.place = some place →
        place.position.line.toNat ≤ (before ++ now).count Ascii.lineFeed + 1 := by
  have hpast : ∀ bs cs : Bytes, (past bs).line.toNat ≤ (bs ++ cs).count Ascii.lineFeed + 1 := by
    intro bs cs
    have hle := Position.line_past_le bs
    rw [List.count_append]
    omega
  induction h with
  | done => simp
  | blank _ _ ih => simpa using ih
  | @item before lex rest i s hm _ ih =>
    rw [List.append_assoc] at ih
    refine ⟨List.forall_mem_cons.2 ⟨?_, ih.1⟩, ih.2⟩
    rw [Item.token_line]
    exact hpast _ _
  | @fault before lex rest cause hm =>
    refine ⟨by simp, ?_⟩
    rintro e place he hplace
    obtain rfl := Option.some.inj he
    obtain rfl := Option.some.inj hplace
    exact hpast _ _

/-! ## Faults are lexical -/

theorem Numeral.lexical {radix : Nat} {sign : String} {run : Bytes} {cause : Cause}
    (h : Numeral radix sign run (.fault cause)) : cause.code.category = .lexical := by
  cases h <;> rfl

theorem Munch.lexical {cause : Cause} (h : Munch lex rest (.fault cause)) :
    cause.code.category = .lexical := by
  cases h with
  | decimal _ _ _ h => exact h.lexical
  | hexadecimal _ _ h => exact h.lexical
  | binary _ _ h => exact h.lexical
  | _ => rfl

theorem Derives.fault_lexical (h : Derives source before now s) {e : Error}
    (he : s.error? = some e) :
    e.category = .lexical ∧ ∃ pos, e.place = some ⟨source, pos⟩ := by
  induction h with
  | done => cases he
  | blank _ _ ih => exact ih he
  | item _ _ ih => exact ih he
  | fault hm =>
    obtain rfl := Option.some.inj he
    exact ⟨hm.lexical, _, rfl⟩

end Grammar

/-! ## Lexers of joined sources -/

theorem Position.toNat_lower {n : Nat} {line : UInt32} (h : line.toNat + n ≤ 0xffffffff) :
    (lower n line).toNat = line.toNat + n := by
  rw [lower, toNat_saturate]
  omega

namespace Lexer

open Grammar (Derives)

variable {path : Path} {bs a b : Bytes} {ts ta tb : List Token} {e : Error}

/-- The bytes come to the tokens `ts` and the final one. No bytes come to no tokens. -/
def LexesTo (path : Path) (bs : Bytes) (ts : List Token) : Prop :=
  bs = [] ∧ ts = [] ∨ bs ≠ [] ∧
    (ofReader (MemoryReader.ofBytes bs path)).1.map (·.tokens.toList) = .ok (ts ++ [.finish])

/-- Making a lexer of the bytes fails with the lexical error `e`. -/
def FailsWith (path : Path) (bs : Bytes) (e : Error) : Prop :=
  e.category = .lexical ∧
    (ofReader (MemoryReader.ofBytes bs path)).1.map (·.tokens.toList) = .error e

theorem outcome_eq_ok {s : Scan} : s.outcome = .ok (ts ++ [.finish]) ↔ s = ⟨ts, none⟩ := by
  obtain ⟨tokens, _ | e⟩ := s <;> simp [Scan.outcome]

theorem outcome_eq_error {s : Scan} : s.outcome = .error e ↔ s.error? = some e := by
  obtain ⟨tokens, _ | e'⟩ := s <;> simp [Scan.outcome]

theorem lexesTo_iff : LexesTo path bs ts ↔ Derives path [] bs ⟨ts, none⟩ := by
  rw [Grammar.derives_iff]
  by_cases hne : bs = []
  · subst hne
    simp [LexesTo, Scan.marksFrom, Scan.ofMarks, eq_comm]
  · rw [LexesTo, ofReader_outcome (MemoryReader.holds bs path) hne, outcome_eq_ok]
    simp [hne, Scan.ofBytes, Position.past_nil]

theorem failsWith_iff : FailsWith path bs e ↔ ∃ ts, Derives path [] bs ⟨ts, some e⟩ := by
  by_cases hne : bs = []
  · subst hne
    constructor
    · rintro ⟨hlexical, hout⟩
      obtain rfl : Error.ofCause (.emptyFile path) = e := Except.error.inj hout
      cases hlexical
    · rintro ⟨ts, h⟩
      have hscan := h.scan_eq
      simp [Scan.marksFrom, Scan.ofMarks] at hscan
  · rw [FailsWith, ofReader_outcome (MemoryReader.holds bs path) hne, outcome_eq_error]
    constructor
    · rintro ⟨-, he⟩
      refine ⟨(Scan.ofBytes path bs).tokens, Grammar.derives_iff.2 ?_⟩
      rw [← he]
      rfl
    · rintro ⟨ts, h⟩
      have hscan : Scan.ofBytes path bs = ⟨ts, some e⟩ := h.scan_eq
      exact ⟨(h.fault_lexical rfl).1, by rw [hscan]⟩

theorem LexesTo.join (ha : LexesTo path a ta) (hb : LexesTo path b tb) :
    LexesTo path (a ++ Ascii.lineFeed :: b)
      (ta ++ tb.map (Token.lower (a.count Ascii.lineFeed + 1))) :=
  lexesTo_iff.2 ((lexesTo_iff.1 ha).join ((lexesTo_iff.1 hb).lower a))

theorem FailsWith.join_above (ha : FailsWith path a e) (b : Bytes) :
    FailsWith path (a ++ Ascii.lineFeed :: b) e := by
  obtain ⟨ta, ha⟩ := failsWith_iff.1 ha
  obtain ⟨scan, hb⟩ := Derives.total path ([] ++ a ++ [Ascii.lineFeed]) b
  exact failsWith_iff.2 ⟨ta, ha.join hb⟩

theorem FailsWith.join_below (ha : LexesTo path a ta) (hb : FailsWith path b e) :
    FailsWith path (a ++ Ascii.lineFeed :: b) (e.lower (a.count Ascii.lineFeed + 1)) := by
  obtain ⟨tb, hb⟩ := failsWith_iff.1 hb
  exact failsWith_iff.2 ⟨_, (lexesTo_iff.1 ha).join (hb.lower a)⟩

/-- Sources joined by a line feed come to what they come to by themselves, with the lines of the
lower one counted on, as long as there is a number for every line. -/
theorem joined_by_lineFeed (path : Path) (a b : Bytes)
    (hlines : a.count Ascii.lineFeed + b.count Ascii.lineFeed < 0xfffffffe) :
    let n := a.count Ascii.lineFeed + 1
    let joined := a ++ Ascii.lineFeed :: b
    (∀ ta tb, LexesTo path a ta → LexesTo path b tb →
      LexesTo path joined (ta ++ tb.map (Token.lower n)) ∧
        ∀ t ∈ tb, (t.lower n).line.toNat = t.line.toNat + n) ∧
    (∀ e, FailsWith path a e → FailsWith path joined e) ∧
    ∀ ta e, LexesTo path a ta → FailsWith path b e → FailsWith path joined (e.lower n) ∧
      ∃ pos, e.place = some ⟨path, pos⟩ ∧ (e.lower n).place = some ⟨path, pos.below n⟩ ∧
        (pos.below n).line.toNat = pos.line.toNat + n := by
  intro n joined
  refine ⟨fun ta tb ha hb => ⟨ha.join hb, fun t ht => ?_⟩, fun e ha => ha.join_above b,
    fun ta e ha hb => ⟨hb.join_below ha, ?_⟩⟩
  · have hline : t.line.toNat ≤ b.count Ascii.lineFeed + 1 := (lexesTo_iff.1 hb).line_le.1 t ht
    exact Position.toNat_lower (by omega)
  · obtain ⟨tb, hb⟩ := failsWith_iff.1 hb
    obtain ⟨-, pos, hpos⟩ := hb.fault_lexical rfl
    have hline : pos.line.toNat ≤ b.count Ascii.lineFeed + 1 := hb.line_le.2 e _ rfl hpos
    exact ⟨pos, hpos, by simp [Error.lower, hpos], Position.toNat_lower (by omega)⟩

theorem lexesTo_register (path : Path) (k : Register) :
    LexesTo path (Keyword.spelling k) [.ofKeyword k path 1] := by
  have hk : Grammar.Munch (Keyword.spelling k) [] (.item (.operand k)) :=
    .operand Grammar.Ends.nil Grammar.Ends.nil
  have hderives : Derives path [] (Keyword.spelling k ++ []) ⟨[.ofKeyword k path 1], none⟩ :=
    .item hk .done
  rw [List.append_nil] at hderives
  exact lexesTo_iff.2 hderives

/-- Two registers, one above the other. -/
theorem joined_by_lineFeed_registers :
    LexesTo ⟨"x.s"⟩ [0x58, Ascii.lineFeed, 0x59]
      [.ofKeyword Register.indexX ⟨"x.s"⟩ 1, .ofKeyword Register.indexY ⟨"x.s"⟩ 2] :=
  ((joined_by_lineFeed ⟨"x.s"⟩ [0x58] [0x59] (by decide)).1 _ _
    (lexesTo_register _ .indexX) (lexesTo_register _ .indexY)).1

theorem lexesTo_lineFeeds (path : Path) (n : Nat) :
    LexesTo path (List.replicate n Ascii.lineFeed) [] := by
  have hderives : Derives path [] (List.replicate n Ascii.lineFeed ++ []) ⟨[], none⟩ :=
    .blanks rfl .done
  rw [List.append_nil] at hderives
  exact lexesTo_iff.2 hderives

/-- With one line feed more there is a line without a number: the register on line 2 ^ 32 has the
number of the line above. -/
theorem joined_beyond_last_line :
    let path : Path := ⟨"x.s"⟩
    let a : Bytes := List.replicate 0xfffffffe Ascii.lineFeed
    let b : Bytes := [0x58]
    let register (line : UInt32) : Token := .ofKeyword Register.indexX path line
    a.count Ascii.lineFeed + b.count Ascii.lineFeed < 0xffffffff ∧
      LexesTo path a [] ∧ LexesTo path b [register 1] ∧
      LexesTo path (a ++ Ascii.lineFeed :: b) [register 0xffffffff] ∧
      ¬ ∃ t, LexesTo path (a ++ Ascii.lineFeed :: b) [t] ∧
        t.line.toNat = (register 1).line.toNat + (a.count Ascii.lineFeed + 1) := by
  intro path a b register
  have hcount : a.count Ascii.lineFeed = 0xfffffffe := List.count_replicate_self
  have ha : LexesTo path a [] := lexesTo_lineFeeds path _
  have hb : LexesTo path b [register 1] := lexesTo_register path .indexX
  have hlast : Position.lower (0xfffffffe + 1) 1 = 0xffffffff := by decide
  have hlower : (register 1).lower (0xfffffffe + 1) = register 0xffffffff :=
    congrArg register hlast
  have hjoined := ha.join hb
  rw [hcount, List.map_singleton, hlower, List.nil_append] at hjoined
  refine ⟨by rw [hcount]; decide, ha, hb, hjoined, ?_⟩
  rintro ⟨t, -, ht⟩
  have hlt := t.line.toNat_lt
  have hone : (register 1).line.toNat = 1 := rfl
  omega

end Lexer

end Asm6502
