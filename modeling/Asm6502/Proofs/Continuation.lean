import Asm6502.Proofs.Acceptance

/-!
# Continuations

How a source goes on matters to a lexeme only if its end was met in reading the lexeme.

- If it was not met, the lexeme is the same whatever follows (`Lexeme.read_append`).
- If it was met, the lexeme is the last one, and there is a continuation with which it is the last
  one as well but has not the same fault (`Lexeme.read_atEnd`).

So a scan that a failure to read cuts off either has come to a fault that every continuation comes
to, or no fault is one that they all come to (`Scan.ofMarks_cut`).
-/

namespace Asm6502

open Scan (marksFrom)

namespace Lexeme

variable {p : UInt8 → Bool} {marks rest : List Mark} {source : Path} {m : Mark} {line : UInt32}

/-! ## Runs and strings -/

/-- A run that stops before the end stays as it is. -/
theorem run_append (h : afterRun p marks ≠ []) (more : List Mark) :
    run p (marks ++ more) = run p marks ∧
      afterRun p (marks ++ more) = afterRun p marks ++ more := by
  induction marks with
  | nil => exact absurd rfl h
  | cons m marks ih =>
    by_cases hm : p m.byte = true
    · obtain ⟨hrun, hafter⟩ := ih (by simpa [afterRun, hm] using h)
      simp only [run, afterRun] at hrun hafter
      simp [run, afterRun, hm, hrun, hafter]
    · simp [run, afterRun, hm]

/-- A run that meets the end takes up one more byte of its class. -/
theorem run_byte (h : afterRun p marks = []) {b : UInt8} (hb : p b = true) (pos : Position) :
    run p (marks ++ marksFrom pos [b]) = run p marks ++ [b] ∧
      afterRun p (marks ++ marksFrom pos [b]) = [] := by
  induction marks with
  | nil => simp [run, afterRun, marksFrom, hb]
  | cons m marks ih =>
    by_cases hm : p m.byte = true
    · obtain ⟨hrun, hafter⟩ := ih (by simpa [afterRun, hm] using h)
      simp only [run, afterRun] at hrun hafter
      simp [run, afterRun, hm, hrun, hafter]
    · simp [afterRun, hm] at h

theorem run_mem {b : UInt8} (h : b ∈ run p marks) : p b = true := by
  obtain ⟨m, hm, rfl⟩ := List.mem_map.1 h
  exact List.all_eq_true.1 List.all_takeWhile m hm

/-- The same ending in front of more marks. -/
def Closing.before (more : List Mark) : Closing → Closing
  | closed text rest => closed text (rest ++ more)
  | cutByLine => cutByLine
  | cutByEnd => cutByEnd

theorem Closing.before_cons (b : UInt8) (c : Closing) (more : List Mark) :
    (c.cons b).before more = (c.before more).cons b := by
  cases c <;> rfl

theorem Closing.cons_eq_cutByEnd {b : UInt8} {c : Closing} :
    c.cons b = cutByEnd ↔ c = cutByEnd := by
  cases c <;> simp [Closing.cons]

/-- What the first byte of a string does depends on no other byte. -/
theorem closing_step (escaped : Bool) (m : Mark) :
    (∃ e, ∀ rest, closing escaped (m :: rest) = (closing e rest).cons m.byte) ∨
      (∃ e, ∀ rest, closing escaped (m :: rest) = closing e rest) ∨
      (∀ rest, closing escaped (m :: rest) = .closed [] rest) ∨
      ∀ rest, closing escaped (m :: rest) = .cutByLine := by
  simp only [closing]
  split
  · cases escaped with
    | true => exact .inl ⟨false, fun _ => rfl⟩
    | false => exact .inr (.inl ⟨true, fun _ => rfl⟩)
  split
  · cases escaped with
    | true => exact .inl ⟨false, fun _ => rfl⟩
    | false => exact .inr (.inr (.inl fun _ => rfl))
  split
  · exact .inr (.inr (.inr fun _ => rfl))
  · exact .inl ⟨false, fun _ => rfl⟩

/-- A string whose end was found before the end of the source stays as it is. -/
theorem closing_append {escaped : Bool} (h : closing escaped marks ≠ .cutByEnd)
    (more : List Mark) :
    closing escaped (marks ++ more) = (closing escaped marks).before more := by
  induction marks generalizing escaped with
  | nil => exact absurd rfl h
  | cons m marks ih =>
    rw [List.cons_append]
    rcases closing_step escaped m with ⟨e, hstep⟩ | ⟨e, hstep⟩ | hstep | hstep
    · rw [hstep] at h ⊢
      rw [hstep, Closing.before_cons, ih fun hc => h (Closing.cons_eq_cutByEnd.2 hc)]
    · rw [hstep] at h ⊢
      rw [hstep, ih h]
    · rw [hstep, hstep]
      rfl
    · rw [hstep, hstep]
      rfl

/-- A string that meets the end can still be closed. -/
theorem exists_closing {escaped : Bool} (h : closing escaped marks = .cutByEnd) :
    ∃ more : Bytes, ∀ pos, ∃ text,
      closing escaped (marks ++ marksFrom pos more) = .closed text [] := by
  induction marks generalizing escaped with
  | nil =>
    have hclosed : ∀ pos, closing false (marksFrom pos [Ascii.quote]) = .closed [] [] :=
      fun _ => rfl
    cases escaped with
    | false => exact ⟨[Ascii.quote], fun pos => ⟨[], hclosed pos⟩⟩
    | true =>
      refine ⟨[Ascii.quote, Ascii.quote], fun pos => ⟨[Ascii.quote], ?_⟩⟩
      exact congrArg (Closing.cons Ascii.quote) (hclosed (pos.after Ascii.quote))
  | cons m marks ih =>
    rcases closing_step escaped m with ⟨e, hstep⟩ | ⟨e, hstep⟩ | hstep | hstep
    · rw [hstep] at h
      obtain ⟨more, hmore⟩ := ih (Closing.cons_eq_cutByEnd.1 h)
      refine ⟨more, fun pos => ?_⟩
      obtain ⟨text, htext⟩ := hmore pos
      exact ⟨m.byte :: text, by rw [List.cons_append, hstep, htext]; rfl⟩
    · rw [hstep] at h
      obtain ⟨more, hmore⟩ := ih h
      refine ⟨more, fun pos => ?_⟩
      obtain ⟨text, htext⟩ := hmore pos
      exact ⟨text, by rw [List.cons_append, hstep, htext]⟩
    · rw [hstep] at h
      cases h
    · rw [hstep] at h
      cases h

/-! ## Faults that show the run -/

/-- A text shows all the bytes of a run. -/
theorem text_ne_append {bs : Bytes} {b : UInt8} (h : ∀ c ∈ bs ++ [b], Ascii.isAscii c = true)
    (sign : String) : sign ++ Utf8.decodeLossy bs ≠ sign ++ Utf8.decodeLossy (bs ++ [b]) := by
  intro heq
  rw [Utf8.decodeLossy_ascii h,
    Utf8.decodeLossy_ascii fun c hc => h c (List.mem_append_left _ hc)] at heq
  have hlength := congrArg String.length heq
  simp [String.length_append] at hlength

theorem scalarMeaning_eq_fault {radix : Nat} {sign : String} {digits : Bytes} {cause : Cause}
    (h : scalarMeaning source radix sign digits line = .fault cause) :
    cause = .scalarOverflow (sign ++ Utf8.decodeLossy digits) ∨
      cause = .invalidScalar (sign ++ Utf8.decodeLossy digits) := by
  unfold scalarMeaning at h
  split at h
  · cases h
  · exact .inl (Meaning.fault.inj h).symm
  · exact .inr (Meaning.fault.inj h).symm

/-- With one more digit a scalar has another fault, if it has one. -/
theorem scalarMeaning_append {radix : Nat} {sign : String} {digits : Bytes} {b : UInt8}
    {cause : Cause} (hd : ∀ c ∈ digits ++ [b], Ascii.isAlphanumeric c = true)
    (h : scalarMeaning source radix sign digits line = .fault cause) :
    scalarMeaning source radix sign (digits ++ [b]) line ≠ .fault cause := by
  intro h'
  have hne := text_ne_append (fun c hc => Ascii.isAscii_of_isAlphanumeric (hd c hc)) sign
  rcases scalarMeaning_eq_fault h with rfl | rfl <;>
    rcases scalarMeaning_eq_fault h' with heq | heq
  · exact hne (Cause.scalarOverflow.inj heq)
  · cases heq
  · cases heq
  · exact hne (Cause.invalidScalar.inj heq)

/-- With one more letter a directive has another fault, if it has one. -/
theorem directiveMeaning_append {name : Bytes} {b : UInt8} {cause : Cause}
    (hn : ∀ c ∈ name ++ [b], Ascii.isLetter c = true)
    (h : directiveMeaning source name line = .fault cause) :
    directiveMeaning source (name ++ [b]) line ≠ .fault cause := by
  have hne : Utf8.decodeLossy name ≠ Utf8.decodeLossy (name ++ [b]) := by
    simpa using text_ne_append (fun c hc => Ascii.isAscii_of_isLetter (hn c hc)) ""
  intro h'
  unfold directiveMeaning at h h'
  split at h
  · cases h
  split at h'
  · cases h'
  exact hne (Cause.unsupportedDirective.inj (Meaning.fault.inj (h.trans h'.symm)))

/-! ## The shapes of lexemes -/

/-- How lexemes that start at a mark depend on what follows it. -/
inductive Shape (source : Path) (m : Mark) (read : List Mark → Lexeme) : Prop where
  /-- They end with the mark. -/
  | single (meaning : Meaning) (h : ∀ rest, read rest = complete meaning rest)
  /-- They are runs, and a run with one more byte has another fault, if it has one. -/
  | run (p : UInt8 → Bool) (f : Bytes → Meaning) (b : UInt8) (hb : p b = true)
      (hf : ∀ bs cause, (∀ c ∈ bs, p c = true) → f bs = .fault cause → f (bs ++ [b]) ≠ .fault cause)
      (h : ∀ rest, read rest = upTo (f (Lexeme.run p rest)) (afterRun p rest))
  | word (h : ∀ rest, read rest = Lexeme.word source m rest)
  | string (h : ∀ rest, read rest = Lexeme.string source m rest)

theorem shape_comment {read : List Mark → Lexeme} (h : ∀ rest, read rest = comment rest) :
    Shape source m read := by
  refine .run (· != Ascii.lineFeed) (fun _ => .nothing) Ascii.space rfl ?_ h
  intro bs cause _ hfault
  cases hfault

theorem shape_decimal {read : List Mark → Lexeme} (hm : Ascii.isDigit m.byte = true)
    (h : ∀ rest, read rest = decimal source m rest) : Shape source m read := by
  refine .run Ascii.isAlphanumeric (fun bs => scalarMeaning source 10 "" (m.byte :: bs) m.pos.line)
    0x30 rfl (fun bs cause hbs => scalarMeaning_append ?_) h
  have hm' : Ascii.isAlphanumeric m.byte = true := by simp [Ascii.isAlphanumeric, hm]
  exact List.forall_mem_append.2 ⟨List.forall_mem_cons.2 ⟨hm', hbs⟩,
    List.forall_mem_singleton.2 rfl⟩

theorem shape_signed {read : List Mark → Lexeme} {radix : Nat}
    (h : ∀ rest, read rest = signed source m rest radix) : Shape source m read := by
  refine .run Ascii.isAlphanumeric
    (fun bs => scalarMeaning source radix (Ascii.toChar m.byte).toString bs m.pos.line) 0x30 rfl
    (fun bs cause hbs => scalarMeaning_append ?_) h
  exact List.forall_mem_append.2 ⟨hbs, List.forall_mem_singleton.2 rfl⟩

theorem shape_directive {read : List Mark → Lexeme}
    (h : ∀ rest, read rest = directive source m rest) : Shape source m read := by
  refine .run Ascii.isLetter (fun bs => directiveMeaning source bs m.pos.line) 0x41 rfl
    (fun bs cause hbs => directiveMeaning_append ?_) h
  exact List.forall_mem_append.2 ⟨hbs, List.forall_mem_singleton.2 rfl⟩

theorem read_shape (source : Path) (m : Mark) : Shape source m (read source m) := by
  unfold read
  cases hm : ByteClass.of m.byte with
  | nul => exact .single .nothing fun _ => rfl
  | blank => exact .single .nothing fun _ => rfl
  | letter => exact .word fun _ => rfl
  | digit => exact shape_decimal (ByteClass.of_eq_digit.1 hm) fun _ => rfl
  | symbol =>
    dsimp only
    split_ifs
    · exact shape_comment fun _ => rfl
    · exact shape_directive fun _ => rfl
    · exact .word fun _ => rfl
    · exact .string fun _ => rfl
    · exact shape_signed fun _ => rfl
    · exact shape_signed fun _ => rfl
    · exact .single (signMeaning source m) fun _ => rfl

/-! ## Lexemes in front of more marks -/

/-- The same lexeme in front of more marks. -/
def before (more : List Mark) (x : Lexeme) : Lexeme := { x with rest := x.rest ++ more }

theorem upTo_before {meaning : Meaning} (h : rest ≠ []) (more : List Mark) :
    (upTo meaning rest).before more = upTo meaning (rest ++ more) := by
  cases rest with
  | nil => exact absurd rfl h
  | cons c rest => rfl

theorem upTo_atEnd {meaning : Meaning} : (upTo meaning rest).atEnd = true ↔ rest = [] :=
  List.isEmpty_iff

theorem word_of_nil (h : afterRun Ascii.isWordByte rest = []) : word source m rest =
    upTo (.token (wordToken source (m.byte :: run Ascii.isWordByte rest) m.pos.line)) [] := by
  unfold word
  rw [h]

theorem word_atEnd :
    (word source m rest).atEnd = true ↔ afterRun Ascii.isWordByte rest = [] := by
  unfold word
  cases afterRun Ascii.isWordByte rest with
  | nil => simp [upTo]
  | cons c after =>
    dsimp only
    split <;> simp [complete, upTo]

theorem word_append (h : (word source m rest).atEnd = false) (more : List Mark) :
    word source m (rest ++ more) = (word source m rest).before more := by
  have hafter : afterRun Ascii.isWordByte rest ≠ [] := fun he => by simp [word_atEnd.2 he] at h
  obtain ⟨hrun, happend⟩ := run_append hafter more
  obtain ⟨c, after, hc⟩ := List.exists_cons_of_ne_nil hafter
  rw [hc] at happend
  simp only [word, hrun, happend, hc, List.cons_append]
  split <;> rfl

theorem string_atEnd : (string source m rest).atEnd = true ↔ closing false rest = .cutByEnd := by
  unfold string
  cases closing false rest with
  | closed text after => simp [complete]
  | cutByLine => simp [complete]
  | cutByEnd => simp [upTo]

theorem string_append (h : (string source m rest).atEnd = false) (more : List Mark) :
    string source m (rest ++ more) = (string source m rest).before more := by
  have hclosing : closing false rest ≠ .cutByEnd := fun he => by simp [string_atEnd.2 he] at h
  unfold string
  rw [closing_append hclosing more]
  cases hc : closing false rest with
  | closed text after => rfl
  | cutByLine => rfl
  | cutByEnd => exact absurd hc hclosing

/-- A lexeme whose end was found before the end of the source is the same whatever follows. -/
theorem read_append (h : (read source m rest).atEnd = false) (more : List Mark) :
    read source m (rest ++ more) = (read source m rest).before more := by
  cases read_shape source m with
  | single meaning hread => rw [hread, hread]; rfl
  | run p f b hb hf hread =>
    rw [hread] at h
    have hafter : afterRun p rest ≠ [] := fun he => by simp [upTo_atEnd.2 he] at h
    obtain ⟨hrun, happend⟩ := run_append hafter more
    rw [hread, hread, hrun, happend, upTo_before hafter]
  | word hread =>
    rw [hread] at h
    rw [hread, hread, word_append h]
  | string hread =>
    rw [hread] at h
    rw [hread, hread, string_append h]

/-- A lexeme that meets the end of the source is its last one. It can be continued to one that has
not the same fault. -/
theorem read_atEnd (h : (read source m rest).atEnd = true) :
    (read source m rest).rest = [] ∧ ∃ more : Bytes, ∀ pos,
      (read source m (rest ++ marksFrom pos more)).rest = [] ∧
        ∀ cause, (read source m rest).meaning = .fault cause →
          (read source m (rest ++ marksFrom pos more)).meaning ≠ .fault cause := by
  cases read_shape source m with
  | single meaning hread =>
    rw [hread] at h
    cases h
  | run p f b hb hf hread =>
    rw [hread] at h ⊢
    have hafter : afterRun p rest = [] := upTo_atEnd.1 h
    refine ⟨hafter, [b], fun pos => ?_⟩
    obtain ⟨hrun, hbyte⟩ := run_byte hafter hb pos
    rw [hread, hrun, hbyte]
    exact ⟨rfl, fun cause => hf _ cause fun c => run_mem⟩
  | word hread =>
    rw [hread] at h ⊢
    have hword : word source m rest = _ := word_of_nil (word_atEnd.1 h)
    refine ⟨by rw [hword]; rfl, [], fun pos => ?_⟩
    rw [marksFrom, List.append_nil, hread, hword]
    refine ⟨rfl, fun cause hfault => ?_⟩
    cases hfault
  | string hread =>
    rw [hread] at h ⊢
    have hclosing := string_atEnd.1 h
    obtain ⟨more, hmore⟩ := exists_closing hclosing
    refine ⟨by simp only [string, hclosing]; rfl, more, fun pos => ?_⟩
    obtain ⟨text, htext⟩ := hmore pos
    rw [hread, string, htext]
    refine ⟨rfl, fun cause _ hfault => ?_⟩
    cases hfault

end Lexeme

/-! ## Scans that a failure cuts off -/

namespace Scan

variable {source : Path} {m : Mark} {marks : List Mark} {fault? : Option Error} {e f : Error}

/-- The first lexeme of some marks decides the scan, if it stands. -/
theorem ofMarks_step (h : (Lexeme.read source m marks).atEnd = false ∨ fault? = none) :
    ofMarks source fault? (m :: marks) = match (Lexeme.read source m marks).meaning with
      | .nothing => ofMarks source fault? (Lexeme.read source m marks).rest
      | .token t => (ofMarks source fault? (Lexeme.read source m marks).rest).cons t
      | .fault cause => ⟨[], some ((Error.ofCause cause).locate source m.pos)⟩ := by
  refine ofMarks.eq_3 source m marks fault? fun e hend he => ?_
  rcases h with h | rfl
  · simp [h] at hend
  · cases he

/-- A lexeme whose end was found decides the scan in the same way whatever follows. -/
theorem ofMarks_append_step (h : (Lexeme.read source m marks).atEnd = false)
    (more : List Mark) :
    ofMarks source fault? (m :: marks ++ more) = match (Lexeme.read source m marks).meaning with
      | .nothing => ofMarks source fault? ((Lexeme.read source m marks).rest ++ more)
      | .token t => (ofMarks source fault? ((Lexeme.read source m marks).rest ++ more)).cons t
      | .fault cause => ⟨[], some ((Error.ofCause cause).locate source m.pos)⟩ := by
  have happend := Lexeme.read_append h more
  rw [List.cons_append, ofMarks_step (.inl (by rw [happend]; exact h)), happend]
  rfl

/-- The last lexeme of a source can only fail by itself. -/
theorem error?_of_last (hrest : (Lexeme.read source m marks).rest = [])
    (h : (ofMarks source none (m :: marks)).error? = some f) :
    ∃ cause, (Lexeme.read source m marks).meaning = .fault cause ∧
      f = (Error.ofCause cause).locate source m.pos := by
  rw [ofMarks_step (.inr rfl), hrest] at h
  split at h
  · simp [ofMarks] at h
  · simp [ofMarks, cons] at h
  · rename_i cause hmeaning
    exact ⟨cause, hmeaning, (Option.some.inj h).symm⟩

/-- A scan that a failure cuts off has come to a fault that every continuation comes to, or there
is none that the source and each of its continuations come to. -/
theorem ofMarks_cut (source : Path) (e : Error) (marks : List Mark) :
    (∃ ts f, ofMarks source (some e) marks = ⟨ts, some f⟩ ∧
      ∀ more, ofMarks source none (marks ++ more) = ⟨ts, some f⟩) ∨
    (ofMarks source (some e) marks).error? = some e ∧ ∃ more : Bytes, ∀ pos f,
      (ofMarks source none marks).error? = some f →
        (ofMarks source none (marks ++ marksFrom pos more)).error? ≠ some f := by
  induction marks using ofMarks.induct source (some e) with
  | case1 => exact .inr ⟨by simp [ofMarks], [], by simp [ofMarks]⟩
  | case2 m marks lexeme e' he hend =>
    obtain rfl := Option.some.inj he
    obtain ⟨hrest, more, hmore⟩ := Lexeme.read_atEnd hend
    refine .inr ⟨by rw [ofMarks.eq_2 source m marks e hend], more, fun pos f hf hf' => ?_⟩
    obtain ⟨hrest', hmeaning'⟩ := hmore pos
    obtain ⟨cause, hmeaning, rfl⟩ := error?_of_last hrest hf
    obtain ⟨cause', hcause', heq⟩ := error?_of_last hrest' hf'
    obtain rfl : cause = cause' := congrArg Error.cause heq
    exact hmeaning' cause hmeaning hcause'
  | case3 m marks lexeme hmeaning hend ih =>
    have hfound : lexeme.atEnd = false := by simpa using hend e
    have hstep (fault? : Option Error) : ofMarks source fault? (m :: marks) =
        ofMarks source fault? lexeme.rest := by
      rw [ofMarks_step (.inl hfound), hmeaning]
    have happend (more : List Mark) : ofMarks source none (m :: marks ++ more) =
        ofMarks source none (lexeme.rest ++ more) := by
      rw [ofMarks_append_step hfound, hmeaning]
    simpa only [hstep, happend] using ih
  | case4 m marks lexeme t hmeaning hend ih =>
    have hfound : lexeme.atEnd = false := by simpa using hend e
    have hstep (fault? : Option Error) : ofMarks source fault? (m :: marks) =
        (ofMarks source fault? lexeme.rest).cons t := by
      rw [ofMarks_step (.inl hfound), hmeaning]
    have happend (more : List Mark) : ofMarks source none (m :: marks ++ more) =
        (ofMarks source none (lexeme.rest ++ more)).cons t := by
      rw [ofMarks_append_step hfound, hmeaning]
    simp only [hstep, happend]
    refine ih.imp ?_ id
    rintro ⟨ts, f, hcut, hwhole⟩
    exact ⟨t :: ts, f, by rw [hcut]; rfl, fun more => by rw [hwhole]; rfl⟩
  | case5 m marks lexeme cause hmeaning hend =>
    have hfound : lexeme.atEnd = false := by simpa using hend e
    refine .inl ⟨_, _, by rw [ofMarks_step (.inl hfound), hmeaning], fun more => ?_⟩
    rw [ofMarks_append_step hfound, hmeaning]

end Scan

end Asm6502
