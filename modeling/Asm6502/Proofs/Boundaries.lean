import Asm6502.Proofs.Joining

/-!
# Where lexemes start

`Scan.Reaches` follows a scan from lexeme to lexeme, and `Scan.ComesTo` says it of bytes: in
`before ++ now` a lexeme starts at `now`, or nothing is left there. What the grammar allows at such
a place decides how a lexer goes on.

- If it is an item, the lexer makes its token and the next lexeme starts right behind it
  (`Lexer.emits_of_munch`).
- If it is a fault, the lexer fails there and reports nothing but the tokens before
  (`Lexer.failsAt_of_munch`).

A lexer does only one of the two, and fails for one cause only.
-/

namespace Asm6502

open Scan (marksFrom)
open Position (past)

namespace Scan

/-- A scan of the marks `all` comes to the marks `now`, behind lexemes that make the tokens `ts`. -/
inductive Reaches (source : Path) (all : List Mark) : List Token → List Mark → Prop where
  | start : Reaches source all [] all
  | skip {ts m rest} : Reaches source all ts (m :: rest) →
      (Lexeme.read source m rest).meaning = .nothing →
      Reaches source all ts (Lexeme.read source m rest).rest
  | emit {ts m rest t} : Reaches source all ts (m :: rest) →
      (Lexeme.read source m rest).meaning = .token t →
      Reaches source all (ts ++ [t]) (Lexeme.read source m rest).rest

/-- A scan of `before ++ now` comes to `now`, behind lexemes that make the tokens `ts`. -/
def ComesTo (source : Path) (before now : Bytes) (ts : List Token) : Prop :=
  Reaches source (marksFrom .start (before ++ now)) ts (marksFrom (past before) now)

variable {source : Path} {all now : List Mark} {ts : List Token}

theorem andThen_andThen (us : List Token) (s : Scan) :
    Scan.andThen ⟨ts, none⟩ (.andThen ⟨us, none⟩ s) = .andThen ⟨ts ++ us, none⟩ s := by
  simp [Scan.andThen]

theorem ofMarks_of_nothing {m : Mark} {rest : List Mark}
    (h : (Lexeme.read source m rest).meaning = .nothing) :
    ofMarks source none (m :: rest) = ofMarks source none (Lexeme.read source m rest).rest := by
  rcases ofMarks_cons source none m rest with ⟨hne, -⟩ | hstep
  · exact absurd rfl hne
  · rw [hstep, h]

theorem ofMarks_of_token {m : Mark} {rest : List Mark} {t : Token}
    (h : (Lexeme.read source m rest).meaning = .token t) :
    ofMarks source none (m :: rest) =
      .andThen ⟨[t], none⟩ (ofMarks source none (Lexeme.read source m rest).rest) := by
  rcases ofMarks_cons source none m rest with ⟨hne, -⟩ | hstep
  · exact absurd rfl hne
  · rw [hstep, h]
    rfl

/-- What is left of a scan comes behind the tokens that it has made. -/
theorem Reaches.scan_eq (h : Reaches source all ts now) :
    ofMarks source none all = .andThen ⟨ts, none⟩ (ofMarks source none now) := by
  induction h with
  | start => rfl
  | skip _ hm ih => rw [ih, ofMarks_of_nothing hm]
  | emit _ hm ih => rw [ih, ofMarks_of_token hm, andThen_andThen]

theorem ComesTo.scan_eq {before now : Bytes} (h : ComesTo source before now ts) :
    ofBytes source (before ++ now) =
      .andThen ⟨ts, none⟩ (ofMarks source none (marksFrom (past before) now)) :=
  Reaches.scan_eq h

theorem comesTo_start (source : Path) (now : Bytes) : ComesTo source [] now [] := .start

end Scan

/-! ## Lexemes at a boundary -/

namespace Grammar

variable {source : Path} {before lex rest : Bytes} {ts : List Token} {i : Item} {cause : Cause}

theorem Munch.comesTo_blank (hm : Munch lex rest .blank)
    (h : Scan.ComesTo source before (lex ++ rest) ts) :
    Scan.ComesTo source (before ++ lex) rest ts := by
  obtain ⟨m, marks, hmarks, -, hmeaning, hrest⟩ := hm.reads source (past before)
  rw [Scan.ComesTo, hmarks] at h
  have hnext := h.skip hmeaning
  rwa [hrest (by simp), ← Position.past_append, ← List.append_assoc] at hnext

theorem Munch.comesTo_item (hm : Munch lex rest (.item i))
    (h : Scan.ComesTo source before (lex ++ rest) ts) :
    Scan.ComesTo source (before ++ lex) rest (ts ++ [i.token source (past before).line]) := by
  obtain ⟨m, marks, hmarks, -, hmeaning, hrest⟩ := hm.reads source (past before)
  rw [Scan.ComesTo, hmarks] at h
  have hnext := h.emit hmeaning
  rwa [hrest (by simp), ← Position.past_append, ← List.append_assoc] at hnext

theorem Munch.scan_fault (hm : Munch lex rest (.fault cause))
    (h : Scan.ComesTo source before (lex ++ rest) ts) :
    Scan.ofBytes source (before ++ (lex ++ rest)) =
      ⟨ts, some ((Error.ofCause cause).locate source (past before))⟩ := by
  rw [h.scan_eq, hm.onto, Sense.onto, Scan.andThen, List.append_nil]

end Grammar

/-! ## Lexers at a boundary -/

namespace Lexer

open Grammar (Munch)

variable {ρ : Type} [Reader ρ] {r : ρ} {path : Path} {before now lex rest : Bytes}
  {ts : List Token} {t : Token} {i : Item} {cause : Cause}

/-- Behind `before` and the tokens `ts`, the lexer of `r` makes `t` of the bytes `lex`, and the next
lexeme is looked for in `rest`. -/
structure Emits (r : ρ) (path : Path) (before : Bytes) (ts : List Token) (lex rest : Bytes)
    (t : Token) : Prop where
  goesOn : Scan.ComesTo path (before ++ lex) rest (ts ++ [t])
  reported : (ts ++ [t]).map Event.emitted <+: (ofReader r).2
  kept : ∀ l, (ofReader r).1 = .ok l → ts ++ [t] <+: l.tokens.toList

/-- Behind `before` and the tokens `ts`, which are all that is reported, making the lexer of `r`
fails. -/
def FailsAt (r : ρ) (path : Path) (before : Bytes) (ts : List Token) (cause : Cause) : Prop :=
  ofReader r = (.error ((Error.ofCause cause).locate path (past before)), ts.map .emitted)

theorem reported_of_comesTo (hr : Reader.Holds r path (before ++ now)) (hne : before ++ now ≠ [])
    (h : Scan.ComesTo path before now ts) : ts.map Event.emitted <+: (ofReader r).2 := by
  have htokens : ts <+: (Scan.ofBytes path (before ++ now)).tokens := by
    rw [h.scan_eq]
    exact List.prefix_append ts _
  cases he : (Scan.ofBytes path (before ++ now)).error? with
  | some e =>
    rw [ofReader_of_error hr hne he]
    exact htokens.map _
  | none =>
    obtain ⟨s, -, -, hmade⟩ := ofReader_of_no_error hr hne he
    rw [hmade]
    exact ((htokens.trans (List.prefix_append _ _)).map _).trans (List.prefix_append _ _)

theorem kept_of_comesTo (hr : Reader.Holds r path (before ++ now)) (hne : before ++ now ≠ [])
    (h : Scan.ComesTo path before now ts) {l : Lexer ρ} (hl : (ofReader r).1 = .ok l) :
    ts <+: l.tokens.toList := by
  have hout := ofReader_outcome hr hne
  rw [hl, h.scan_eq] at hout
  generalize Scan.ofMarks path none (marksFrom (past before) now) = s at hout
  obtain ⟨us, _ | e⟩ := s
  · have htokens : l.tokens.toList = ts ++ us ++ [.finish] := Except.ok.inj hout
    rw [htokens, List.append_assoc]
    exact List.prefix_append ts _
  · cases hout

/-- A lexeme that is an item becomes its token. -/
theorem emits_of_munch (hr : Reader.Holds r path (before ++ (lex ++ rest)))
    (h : Scan.ComesTo path before (lex ++ rest) ts) (hm : Munch lex rest (.item i)) :
    Emits r path before ts lex rest (i.token path (past before).line) := by
  have hnext := hm.comesTo_item h
  rw [← List.append_assoc] at hr
  have hne : before ++ lex ++ rest ≠ [] := by simp [hm.ne_nil]
  exact ⟨hnext, reported_of_comesTo hr hne hnext, fun _ => kept_of_comesTo hr hne hnext⟩

/-- A lexeme with a fault is the last one. -/
theorem failsAt_of_munch (hr : Reader.Holds r path (before ++ (lex ++ rest)))
    (h : Scan.ComesTo path before (lex ++ rest) ts) (hm : Munch lex rest (.fault cause)) :
    FailsAt r path before ts cause := by
  have hscan := hm.scan_fault h
  rw [FailsAt, ofReader_of_error hr (by simp [hm.ne_nil]) (by rw [hscan]), hscan]

theorem Emits.not_failsAt (h : Emits r path before ts lex rest t) :
    ¬ FailsAt r path before ts cause := by
  intro hfails
  have hle := h.reported.length_le
  rw [hfails, List.length_map, List.length_map, List.length_append, List.length_singleton] at hle
  omega

theorem FailsAt.unique {cause' : Cause} (h : FailsAt r path before ts cause)
    (h' : FailsAt r path before ts cause') : cause = cause' := by
  have herror := Except.error.inj (Prod.mk.inj (h.symm.trans h')).1
  exact congrArg Error.cause herror

end Lexer

end Asm6502
