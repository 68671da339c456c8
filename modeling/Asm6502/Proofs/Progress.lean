import Asm6502.Proofs.Joining
import Asm6502.Proofs.Turns
import Asm6502.Reader.Faulty

/-!
# Progress

A scan that goes on in step with its source comes to an end if the source does, with no more turns
than the source has bytes (`Scanner.ends_in_order`).

- Each turn takes at least the mark that it is about, and the next turn starts with the first mark
  that is left (`Scanner.Turn.Fits`, `Scanner.Tiles`).
- So the turns of a scan take the marks of the source in their order and each of them once
  (`Scanner.Orderly`).

It comes to the same as a scan of all the bytes at once, so the two make the same lexer
(`Scanner.lexer_eq`).
-/

namespace Asm6502

open Scan (marksFrom)

namespace Scanner

section

variable {ρ : Type} [Supply ρ] {all marks rest : List Mark} {m n : Mark} {e f : Error}
  {last : Stream ρ} {s s' s'' : Scanner ρ} {source : Path} {k : Nat} {t : Turn} {ts : List Turn}
  {t? : Option Token} {step : Step}

/-! ## Turns in a row -/

/-- A turn about one of the marks of a source, which takes at least that one. -/
structure Turn.Fits (all : List Mark) (t : Turn) : Prop where
  mark : all[t.start]? = some t.mark
  start_lt_next : t.start < t.next
  stop_lt : t.stop < all.length

/-- Turns over the marks of a source from number `k` on. Each takes up where the one before it left
off, and only the last one may have met a fault or the end. -/
inductive Tiles (all : List Mark) : Nat → List Turn → Prop where
  | final {t : Turn} : t.Fits all → t.step? ≠ some .hold →
      (t.step? ≠ none → t.stop + 1 = all.length) → Tiles all t.start [t]
  | more {t : Turn} {ts : List Turn} : t.Fits all → t.step? = some .hold ∨ t.step? = some .advance →
      Tiles all t.next ts → Tiles all t.start (t :: ts)

/-- Turns over the marks of a source, as they follow each other in a scan. -/
structure Orderly (all : List Mark) (ts : List Turn) : Prop where
  mark : ∀ t ∈ ts, all[t.start]? = some t.mark
  /-- No turn goes back, and one that holds has moved on. -/
  moved : ∀ t ∈ ts, t.start ≤ t.stop ∧ (t.step? = some .hold → t.start < t.stop)
  /-- Behind a turn that holds the next one starts where it stands, behind a turn that advances
  one move further on, and behind any other turn there is none. -/
  follow : ts.IsChain fun t u =>
    t.step? = some .hold ∧ u.start = t.stop ∨ t.step? = some .advance ∧ u.start = t.stop + 1
  /-- The last turn does not hold, and without a fault it stands on the last mark. -/
  final : ∀ t ∈ ts.getLast?,
    t.step? ≠ some .hold ∧ (t.step? ≠ none → t.stop + 1 = all.length)
  starts : (ts.map Turn.start).Pairwise (· < ·)
  /-- The turns take the marks in their order and each of them once, and without a fault all of
  them. -/
  taken : ∃ n ≤ all.length, ts.flatMap Turn.taken = List.range n ∧
    ((∀ t ∈ ts, t.step? ≠ none) → n = all.length)

theorem Turn.next_of_hold (h : t.step? = some .hold) : t.next = t.stop := if_pos h

theorem Turn.next_of_not_hold (h : t.step? ≠ some .hold) : t.next = t.stop + 1 := if_neg h

theorem Turn.Fits.next_le (h : t.Fits all) : t.next ≤ all.length := by
  have hstop := h.stop_lt
  unfold Turn.next
  split <;> omega

theorem Turn.Fits.moved (h : t.Fits all) :
    t.start ≤ t.stop ∧ (t.step? = some .hold → t.start < t.stop) := by
  have hlt := h.start_lt_next
  by_cases hhold : t.step? = some .hold
  · rw [Turn.next_of_hold hhold] at hlt
    exact ⟨Nat.le_of_lt hlt, fun _ => hlt⟩
  · rw [Turn.next_of_not_hold hhold] at hlt
    exact ⟨Nat.le_of_lt_succ hlt, fun hhold' => absurd hhold' hhold⟩

theorem Turn.Fits.taken_append (h : t.Fits all) {n : Nat} (hn : t.next ≤ n) :
    t.taken ++ List.range' t.next (n - t.next) = List.range' t.start (n - t.start) := by
  have hlt := h.start_lt_next
  have hsplit : n - t.start = (t.next - t.start) + (n - t.next) := by omega
  have hnext : t.start + (t.next - t.start) = t.next := by omega
  rw [hsplit, ← List.range'_append_1, hnext]
  rfl

theorem Tiles.exists_cons (h : Tiles all k ts) : ∃ t ts', ts = t :: ts' ∧ t.start = k := by
  cases h with
  | final => exact ⟨_, _, rfl, rfl⟩
  | more => exact ⟨_, _, rfl, rfl⟩

theorem Tiles.fits (h : Tiles all k ts) : ∀ t ∈ ts, t.Fits all := by
  induction h with
  | final hfits => simpa using hfits
  | more hfits _ _ ih => exact List.forall_mem_cons.2 ⟨hfits, ih⟩

theorem Tiles.length_le (h : Tiles all k ts) : k + ts.length ≤ all.length := by
  induction h with
  | final hfits =>
    have := hfits.start_lt_next
    have := hfits.next_le
    simp only [List.length_singleton]
    omega
  | more hfits _ _ ih =>
    have := hfits.start_lt_next
    simp only [List.length_cons]
    omega

theorem Tiles.starts (h : Tiles all k ts) :
    (∀ t ∈ ts, k ≤ t.start) ∧ (ts.map Turn.start).Pairwise (· < ·) := by
  induction h with
  | final => simp
  | @more t ts hfits _ _ ih =>
    have hlt := hfits.start_lt_next
    obtain ⟨hle, hpairwise⟩ := ih
    refine ⟨List.forall_mem_cons.2 ⟨Nat.le_refl _, fun u hu => ?_⟩, ?_⟩
    · have := hle u hu
      omega
    · refine List.pairwise_cons.2 ⟨?_, hpairwise⟩
      simp only [List.mem_map, forall_exists_index, and_imp]
      rintro _ u hu rfl
      have := hle u hu
      omega

theorem Tiles.follow (h : Tiles all k ts) : ts.IsChain fun t u =>
    t.step? = some .hold ∧ u.start = t.stop ∨
      t.step? = some .advance ∧ u.start = t.stop + 1 := by
  induction h with
  | final => exact .singleton _
  | more _ hstep htiles ih =>
    obtain ⟨u, ts, rfl, hu⟩ := htiles.exists_cons
    refine .cons_cons ?_ ih
    rcases hstep with hstep | hstep
    · exact .inl ⟨hstep, by rw [hu, Turn.next_of_hold hstep]⟩
    · exact .inr ⟨hstep, by rw [hu, Turn.next_of_not_hold (by simp [hstep])]⟩

theorem Tiles.final_step (h : Tiles all k ts) : ∀ t ∈ ts.getLast?,
    t.step? ≠ some .hold ∧ (t.step? ≠ none → t.stop + 1 = all.length) := by
  induction h with
  | final _ hhold hend => simpa using ⟨hhold, hend⟩
  | more _ _ htiles ih =>
    obtain ⟨u, ts, rfl, -⟩ := htiles.exists_cons
    simpa [List.getLast?_cons_cons] using ih

theorem Tiles.taken (h : Tiles all k ts) : ∃ n, k ≤ n ∧ n ≤ all.length ∧
    ts.flatMap Turn.taken = List.range' k (n - k) ∧
      ((∀ t ∈ ts, t.step? ≠ none) → n = all.length) := by
  induction h with
  | @final t hfits hhold hend =>
    refine ⟨t.next, Nat.le_of_lt hfits.start_lt_next, hfits.next_le, by simp [Turn.taken],
      fun hok => ?_⟩
    rw [Turn.next_of_not_hold hhold, hend (hok t (by simp))]
  | @more t ts hfits _ _ ih =>
    obtain ⟨n, hle, hn, htaken, hall⟩ := ih
    have hlt := hfits.start_lt_next
    refine ⟨n, by omega, hn, ?_, fun hok => hall fun u hu => hok u (List.mem_cons_of_mem t hu)⟩
    rw [List.flatMap_cons, htaken, hfits.taken_append hle]

theorem Tiles.orderly (h : Tiles all 0 ts) : Orderly all ts where
  mark t ht := (h.fits t ht).mark
  moved t ht := (h.fits t ht).moved
  follow := h.follow
  final := h.final_step
  starts := h.starts.2
  taken := by
    obtain ⟨n, -, hn, htaken, hall⟩ := h.taken
    exact ⟨n, hn, by rw [htaken, List.range_eq_range', Nat.sub_zero], hall⟩

theorem orderly_nil : Orderly [] [] where
  mark := by simp
  moved := by simp
  follow := .nil
  final := by simp
  starts := .nil
  taken := ⟨0, Nat.le_refl _, rfl, fun _ => rfl⟩

/-! ## One turn of a scan

A scan ends with a turn that has met a fault or the end (`Faces.ends_of_error`,
`Faces.ends_of_exhausted`, `Faces.ends_of_last`), and goes on with what is left behind any other
(`Ends.cons`). -/

/-- A scan from `s` on comes to an end, with turns over the marks that are left and with what a scan
of these marks at once gives. -/
structure Ends (all : List Mark) (e : Error) (last : Stream ρ) (source : Path) (s : Scanner ρ)
    (marks : List Mark) (c : Course ρ) : Prop where
  loop : s.loop source = some c
  tiles : Tiles all s.offset c.turns
  scan : c.scan = Scan.ofMarks source (cut? e) marks
  last : c.error? = none → c.last.toStream = last

def turn (s s' : Scanner ρ) (outcome : Outcome) : Turn :=
  ⟨⟨s.byte, s.pos⟩, s.offset, s'.offset, outcome⟩

theorem loop_of_error (h : s.dispatch source = some (.error f, s')) :
    s.loop source = some ⟨[turn s s' (.error f)], some f, s'⟩ := by
  rw [Scanner.loop, h]
  rfl

theorem loop_of_ended (h : s.dispatch source = some (.ok (t?, step), s'))
    (hproceed : s'.proceed step = (.ok false, s'')) :
    s.loop source = some ⟨[turn s s' (.ok (t?, step))], none, s''⟩ := by
  rw [Scanner.loop, h]
  simp [hproceed, turn]

theorem loop_of_failed (h : s.dispatch source = some (.ok (t?, step), s'))
    (hproceed : s'.proceed step = (.error f, s'')) :
    s.loop source = some ⟨[turn s s' (.ok (t?, step))], some f, s''⟩ := by
  rw [Scanner.loop, h]
  simp [hproceed, turn]

theorem loop_of_more {c : Course ρ} (h : s.dispatch source = some (.ok (t?, step), s'))
    (hproceed : s'.proceed step = (.ok true, s'')) (hloop : s''.loop source = some c) :
    s.loop source = some (c.cons (turn s s' (.ok (t?, step)))) := by
  rw [Scanner.loop, h]
  simp [hproceed, hloop, turn]

theorem Takes.bounds {outcome : Outcome} (h : Faces all e last s (m :: rest))
    (ht : Takes all e last source s (Lexeme.read source m rest) outcome s') :
    s.offset ≤ s'.offset ∧ s'.offset < all.length := by
  have hlength := h.length
  have hrest := Lexeme.read_rest_length_le source m rest
  rw [List.length_cons] at hlength
  cases ht with
  | ended _ hs' =>
    have := hs'.offset
    omega
  | hold _ hs' =>
    have := hs'.length
    have := List.length_pos_iff.2 hs'.ahead.ne_nil
    omega
  | advance _ hs' =>
    have := hs'.length
    rw [List.length_cons] at this
    omega
  | fault _ _ hle hlt => exact ⟨hle, hlt⟩

theorem Faces.turn_fits (h : Faces all e last s (m :: rest)) {outcome : Outcome}
    (hlt : s.offset < (turn s s' outcome).next) (hstop : s'.offset < all.length) :
    (turn s s' outcome).Fits all := by
  obtain rfl := h.mark
  exact ⟨h.getElem?, hlt, hstop⟩

theorem Faces.tiles_final (h : Faces all e last s (m :: rest)) {outcome : Outcome}
    (hle : s.offset ≤ s'.offset) (hstop : s'.offset < all.length)
    (hhold : (turn s s' outcome).step? ≠ some .hold)
    (hend : (turn s s' outcome).step? ≠ none → s'.offset + 1 = all.length) :
    Tiles all s.offset [turn s s' outcome] := by
  have hnext : (turn s s' outcome).next = s'.offset + 1 := Turn.next_of_not_hold hhold
  exact .final (h.turn_fits (by omega) hstop) hhold hend

theorem Faces.ends_of_error (h : Faces all e last s (m :: rest))
    (hd : s.dispatch source = some (.error f, s'))
    (hbounds : s.offset ≤ s'.offset ∧ s'.offset < all.length)
    (hscan : Scan.ofMarks source (cut? e) (m :: rest) = ⟨[], some f⟩) :
    ∃ c, Ends all e last source s (m :: rest) c :=
  ⟨_, loop_of_error hd, h.tiles_final hbounds.1 hbounds.2 (fun hhold => by cases hhold)
    fun hstep => absurd rfl hstep, hscan.symm, fun hnone => by cases hnone⟩

theorem Faces.ends_of_exhausted (h : Faces all e last s (m :: rest))
    (hd : s.dispatch source = some (.ok (t?, .exhausted), s')) (hs' : Ended all last s')
    (hbounds : s.offset ≤ s'.offset ∧ s'.offset < all.length)
    (hscan : Scan.ofMarks source (cut? e) (m :: rest) = ⟨t?.toList, none⟩) :
    ∃ c, Ends all e last source s (m :: rest) c := by
  refine ⟨_, loop_of_ended hd rfl, h.tiles_final hbounds.1 hbounds.2 (fun hhold => by cases hhold)
    fun _ => hs'.offset, ?_, fun _ => hs'.stream⟩
  rw [hscan]
  cases t? <;> rfl

theorem Faces.ends_of_last (h : Faces all e last s (m :: rest))
    (hd : s.dispatch source = some (.ok (t?, .advance), s')) (hs' : Faces all e last s' [n])
    (hbounds : s.offset ≤ s'.offset ∧ s'.offset < all.length)
    (hscan : Scan.ofMarks source (cut? e) (m :: rest) = ⟨t?.toList, cut? e⟩) :
    ∃ c, Ends all e last source s (m :: rest) c := by
  have htiles : Tiles all s.offset [turn s s' (.ok (t?, .advance))] :=
    h.tiles_final hbounds.1 hbounds.2 (fun hhold => by cases hhold) fun _ => hs'.length
  have htokens : [turn s s' (.ok (t?, .advance))].filterMap Turn.token? = t?.toList := by
    cases t? <;> rfl
  obtain ⟨s'', hadvance, hs''⟩ := hs'.advance_final
  rcases endedBy_cases e with ⟨hcut, hend⟩ | ⟨hcut, hend⟩
  · rw [hend] at hadvance
    refine ⟨_, loop_of_ended hd hadvance, htiles, ?_, fun _ => hs''.stream⟩
    rw [hscan, hcut, Course.scan, htokens]
  · rw [hend] at hadvance
    refine ⟨_, loop_of_failed hd hadvance, htiles, ?_, fun hnone => by cases hnone⟩
    rw [hscan, hcut, Course.scan, htokens]

theorem Ends.cons {c : Course ρ} (hc : Ends all e last source s'' marks c)
    (h : Faces all e last s (m :: rest)) (hd : s.dispatch source = some (.ok (t?, step), s'))
    (hstep : step = .hold ∨ step = .advance) (hproceed : s'.proceed step = (.ok true, s''))
    (hnext : (turn s s' (.ok (t?, step))).next = s''.offset) (hlt : s.offset < s''.offset)
    (hstop : s'.offset < all.length)
    (hscan : Scan.ofMarks source (cut? e) (m :: rest) =
      .andThen ⟨t?.toList, none⟩ (Scan.ofMarks source (cut? e) marks)) :
    ∃ c, Ends all e last source s (m :: rest) c := by
  have htiles := hc.tiles
  rw [← hnext] at htiles hlt
  refine ⟨_, loop_of_more hd hproceed hc.loop, ?_, ?_, hc.last⟩
  · exact .more (h.turn_fits hlt hstop) (hstep.imp (congrArg some) (congrArg some)) htiles
  · rw [hscan, ← hc.scan]
    cases t? <;> rfl

/-! ## Turns and lexemes -/

/-- A lexeme has a fault, which settles every turn and every scan that comes to it, or it makes a
token at most, and what is left is scanned behind that. -/
theorem settle_cases (source : Path) (m : Mark) (rest : List Mark) :
    (∃ f, (∀ step, settle source m.pos (Lexeme.read source m rest).meaning step = .error f) ∧
      ∀ fault?, (Lexeme.read source m rest).atEnd = false ∨ fault? = none →
        Scan.ofMarks source fault? (m :: rest) = ⟨[], some f⟩) ∨
    ∃ t?, (∀ step, settle source m.pos (Lexeme.read source m rest).meaning step = .ok (t?, step)) ∧
      ∀ fault?, (Lexeme.read source m rest).atEnd = false ∨ fault? = none →
        Scan.ofMarks source fault? (m :: rest) = .andThen ⟨t?.toList, none⟩
          (Scan.ofMarks source fault? (Lexeme.read source m rest).rest) := by
  cases hmeaning : (Lexeme.read source m rest).meaning with
  | nothing =>
    refine .inr ⟨none, fun _ => rfl, fun fault? hend => ?_⟩
    rw [Scan.ofMarks_step hend, hmeaning]
    rfl
  | token t =>
    refine .inr ⟨some t, fun _ => rfl, fun fault? hend => ?_⟩
    rw [Scan.ofMarks_step hend, hmeaning]
    rfl
  | fault cause =>
    refine .inl ⟨_, fun _ => rfl, fun fault? hend => ?_⟩
    rw [Scan.ofMarks_step hend, hmeaning]

theorem ofMarks_nil (source : Path) (fault? : Option Error) :
    Scan.ofMarks source fault? [] = ⟨[], fault?⟩ := by
  rw [Scan.ofMarks]

theorem Faces.ends_of_ended (h : Faces all e last s (m :: rest))
    (hd : s.dispatch source = some (endedBy e .exhausted >>=
      settle source m.pos (Lexeme.read source m rest).meaning, s'))
    (hend : (Lexeme.read source m rest).atEnd = true) (hs' : Ended all last s')
    (hbounds : s.offset ≤ s'.offset ∧ s'.offset < all.length) :
    ∃ c, Ends all e last source s (m :: rest) c := by
  rcases endedBy_cases e with ⟨hcut, hok⟩ | ⟨hcut, hfail⟩
  · rw [hok] at hd
    rcases settle_cases source m rest with ⟨f, hsettle, hscan⟩ | ⟨t?, hsettle, hscan⟩
    · refine h.ends_of_error (hd.trans ?_) hbounds (hscan _ (.inr hcut))
      rw [← hsettle .exhausted]
      rfl
    · have hd : s.dispatch source = some (.ok (t?, .exhausted), s') := by
        rw [hd, ← hsettle]
        rfl
      refine h.ends_of_exhausted hd hs' hbounds ?_
      rw [hscan _ (.inr hcut), (Lexeme.read_atEnd hend).1, ofMarks_nil, hcut]
      simp [Scan.andThen]
  · rw [hfail] at hd
    refine h.ends_of_error hd hbounds ?_
    rw [hcut, Scan.ofMarks.eq_2 source m rest e hend]

theorem Faces.ends_of_hold (h : Faces all e last s (m :: rest))
    (hd : s.dispatch source =
      some (settle source m.pos (Lexeme.read source m rest).meaning .hold, s'))
    (hend : (Lexeme.read source m rest).atEnd = false)
    (hs' : Faces all e last s' (Lexeme.read source m rest).rest)
    (hbounds : s.offset ≤ s'.offset ∧ s'.offset < all.length)
    (ih : ∃ c, Ends all e last source s' (Lexeme.read source m rest).rest c) :
    ∃ c, Ends all e last source s (m :: rest) c := by
  rcases settle_cases source m rest with ⟨f, hsettle, hscan⟩ | ⟨t?, hsettle, hscan⟩
  · rw [hsettle] at hd
    exact h.ends_of_error hd hbounds (hscan _ (.inl hend))
  · rw [hsettle] at hd
    obtain ⟨c, hc⟩ := ih
    have hlt : s.offset < s'.offset := by
      have := Lexeme.read_rest_length_le source m rest
      have := hs'.length
      have := h.length
      rw [List.length_cons] at this
      omega
    exact hc.cons h hd (.inl rfl) rfl (Turn.next_of_hold rfl) hlt hbounds.2 (hscan _ (.inl hend))

theorem Faces.ends_of_advance (h : Faces all e last s (m :: rest))
    (hd : s.dispatch source =
      some (settle source m.pos (Lexeme.read source m rest).meaning .advance, s'))
    (hend : (Lexeme.read source m rest).atEnd = false)
    (hs' : Faces all e last s' (n :: (Lexeme.read source m rest).rest))
    (hbounds : s.offset ≤ s'.offset ∧ s'.offset < all.length)
    (ih : ∀ s'', Faces all e last s'' (Lexeme.read source m rest).rest →
      ∃ c, Ends all e last source s'' (Lexeme.read source m rest).rest c) :
    ∃ c, Ends all e last source s (m :: rest) c := by
  rcases settle_cases source m rest with ⟨f, hsettle, hscan⟩ | ⟨t?, hsettle, hscan⟩
  · rw [hsettle] at hd
    exact h.ends_of_error hd hbounds (hscan _ (.inl hend))
  · rw [hsettle] at hd
    have hscan := hscan (cut? e) (.inl hend)
    generalize (Lexeme.read source m rest).rest = left at hs' ih hscan
    cases left with
    | nil =>
      refine h.ends_of_last hd hs' hbounds ?_
      rw [hscan, ofMarks_nil]
      simp [Scan.andThen]
    | cons n' left =>
      obtain ⟨s'', hadvance, hs'', hoffset⟩ := hs'.advance_more
      obtain ⟨c, hc⟩ := ih s'' hs''
      have hnext : (turn s s' (.ok (t?, .advance))).next = s''.offset := by
        rw [hoffset]
        exact Turn.next_of_not_hold fun hhold => by cases hhold
      exact hc.cons h hd (.inr rfl) hadvance hnext (by omega) hbounds.2 hscan

/-- A scan on its way through a source that ends comes to an end itself. -/
theorem Faces.exists_ends (h : Faces all e last s marks) (source : Path) :
    ∃ c, Ends all e last source s marks c := by
  -- On the number of marks that are left: every lexeme takes one at least.
  generalize hk : marks.length = k
  induction k using Nat.strongRecOn generalizing s marks with
  | ind k ih =>
    obtain ⟨m, rest, rfl⟩ := List.exists_cons_of_ne_nil h.ahead.ne_nil
    have hless : (Lexeme.read source m rest).rest.length < k := by
      have := Lexeme.read_rest_length_le source m rest
      rw [← hk, List.length_cons]
      omega
    obtain ⟨outcome, s', hd, htakes⟩ := h.dispatch source
    have hbounds := htakes.bounds h
    have hpos : s.pos = m.pos := by rw [h.mark]
    cases htakes with
    | ended hend hs' => exact h.ends_of_ended (hpos ▸ hd) hend hs' hbounds
    | hold hend hs' => exact h.ends_of_hold (hpos ▸ hd) hend hs' hbounds (ih _ hless hs' rfl)
    | advance hend hs' =>
      exact h.ends_of_advance (hpos ▸ hd) hend hs' hbounds fun s'' hs'' => ih _ hless hs'' rfl
    | fault hend hcause =>
      rcases settle_cases source m rest with ⟨f, hsettle, hscan⟩ | ⟨t?, hsettle, -⟩
      · rw [hpos, hsettle] at hd
        exact h.ends_of_error hd hbounds (hscan _ (.inl hend))
      · cases (hcause ▸ hsettle .hold)

end

/-! ## Lexers -/

section

variable {ρ : Type} [Reader ρ]

/-- The lexer that a scan comes to, with what was reported. -/
def Course.lexer (c : Course ρ) : Except Error (Lexer ρ) × List Event :=
  match c.scan.error? with
  | some e => (.error e, c.scan.tokens.map .emitted)
  | none =>
    let tokens := c.scan.tokens ++ [Token.finish]
    let l : Lexer ρ := ⟨c.last.toStream, .ofList tokens, 0, none⟩
    let report := tokens.map .emitted ++ [.tokenized l.source l.size]
    match l.reset with
    | ((.ok (), l), rewound) => (.ok l, report ++ rewound)
    | ((.error e, _), rewound) => (.error e, report ++ rewound)

theorem ahead_drain (s : Stream ρ) : Ahead s.drain.1.ending s.drain.2 s s.drain.1.marks := by
  induction s using Stream.drain.induct with
  | case1 s t h tape last hd ih =>
    rw [Stream.drain_of_next_ok h]
    unfold Stream.next at h
    split at h
    · rename_i b r hread
      obtain ⟨-, rfl⟩ := Prod.mk.inj h
      exact .more hread ih
    · simp at h
  | case2 s e t h =>
    rw [Stream.drain_of_next_error h]
    unfold Stream.next at h
    split at h
    · simp at h
    · rename_i f r hread
      obtain ⟨hf, ht⟩ := Prod.mk.inj h
      obtain rfl := Except.error.inj hf
      exact .final hread ht

theorem loop_lexer (s : Stream ρ) :
    (loop s.drain.2.path ⟨s, 0⟩).map Course.lexer = some (Lexer.ofStream s) := by
  have hfaces : Faces s.drain.1.marks s.drain.1.ending s.drain.2 ⟨s, 0⟩ s.drain.1.marks :=
    ⟨ahead_drain s, rfl⟩
  obtain ⟨c, hc⟩ := hfaces.exists_ends s.drain.2.path
  have hscan : c.scan = Scan.ofMarks s.drain.2.path s.drain.1.fault? s.drain.1.marks := hc.scan
  rw [hc.loop, Option.map_some, Lexer.ofStream, Course.lexer]
  simp only [← hscan]
  cases herror : c.scan.error? with
  | some f => rfl
  | none => simp only [hc.last herror]; rfl

theorem ofSupply_of_stream {r : ρ} {s : Stream ρ} (h : Stream.ofReader r = .ok s)
    (source : Path) : ofSupply source r = loop source ⟨s, 0⟩ := by
  unfold Stream.ofReader at h
  split at h
  · cases h
  · cases h
  · split at h
    · rename_i s' hreset
      obtain rfl := Except.ok.inj h
      unfold Stream.reset at hreset
      split at hreset
      · simp at hreset
      · rename_i r' hr
        split at hreset
        · simp at hreset
        · rename_i b r'' hread
          obtain ⟨-, rfl⟩ := Prod.mk.inj hreset
          have hr : Supply.reset r = (.ok (), r') := hr
          have hread : Supply.readByte r' = (.ok b, r'') := hread
          simp [ofSupply, hr, hread]
    · cases h

/-- The lexer of a reader is the one that a scan in step with it comes to. -/
theorem lexer_eq {r : ρ} {s : Stream ρ} (h : Stream.ofReader r = .ok s) :
    (ofSupply s.drain.2.path r).map Course.lexer = some (Lexer.ofReader r) := by
  rw [ofSupply_of_stream h, loop_lexer, Lexer.ofReader, h]

end

/-! ## Scans -/

section

variable {ρ : Type} [Supply ρ] {e : Error}

theorem length_marksFrom (pos : Position) (bs : Bytes) : (marksFrom pos bs).length = bs.length := by
  induction bs generalizing pos with
  | nil => rfl
  | cons b bs ih => rw [marksFrom, List.length_cons, List.length_cons, ih]

theorem exists_ahead {r : ρ} {bs : Bytes} (h : Supply.Yields e r bs) (b : UInt8) (pos : Position) :
    ∃ last, Ahead e last ⟨r, b, pos⟩ (marksFrom pos (b :: bs)) := by
  induction h generalizing b pos with
  | fails hread => exact ⟨_, .final hread rfl⟩
  | @next _ _ c _ hread _ ih =>
    obtain ⟨last, hlast⟩ := ih c (pos.after b)
    exact ⟨last, .more hread hlast⟩

/-- A source that yields `bs` after a reset and then fails with `e`, at its end or before: the scan
comes to an end, with no more turns than there are bytes; each turn is about the byte behind those
that the turns before it have taken; and it comes to what a scan of all the bytes at once does. -/
theorem ends_in_order (source : Path) {r r' : ρ} {bs : Bytes}
    (hreset : Supply.reset r = (.ok (), r')) (hr : Supply.Yields e r' bs) :
    ∃ c, ofSupply source r = some c ∧ c.turns.length ≤ bs.length ∧
      Orderly (marksFrom .start bs) c.turns ∧
      (bs = [] → c.scan = ⟨[], some e⟩) ∧
      (bs ≠ [] → c.scan = Scan.ofMarks source (if e.code = .endOfFile then none else some e)
        (marksFrom .start bs)) := by
  cases hr with
  | @fails _ r'' hread =>
    have hnone : ofSupply source r = some ⟨[], some e, ⟨⟨r'', Ascii.nul, .start⟩, 0⟩⟩ := by
      simp [ofSupply, hreset, hread]
    exact ⟨_, hnone, Nat.le_refl _, orderly_nil, fun _ => rfl, fun hne => absurd rfl hne⟩
  | @next _ r'' b bs hread hr =>
    obtain ⟨last, hahead⟩ := exists_ahead hr b .start
    have hfaces : Faces (marksFrom .start (b :: bs)) e last ⟨⟨r'', b, .start⟩, 0⟩
        (marksFrom .start (b :: bs)) := ⟨hahead, rfl⟩
    obtain ⟨c, hc⟩ := hfaces.exists_ends source
    have hlength := hc.tiles.length_le
    rw [length_marksFrom, Nat.zero_add] at hlength
    refine ⟨c, ?_, hlength, hc.tiles.orderly, (fun hnil => by cases hnil), fun _ => hc.scan⟩
    simpa [ofSupply, hreset, hread] using hc.loop

/-- A register, a comment, and a number that a failure cuts off behind its last byte. -/
theorem ends_in_order_cut_number :
    let e := FaultyReader.fault .io "faulty read"
    let bs : Bytes := [0x41, Ascii.semicolon, 0x62, Ascii.lineFeed, Ascii.percent, 0x31]
    let r : FaultyReader := { path := ⟨"x.s"⟩, data := bs.toArray, badOffset := some (6, e) }
    ∃ r', Supply.reset r = (.ok (), r') ∧ Supply.Yields e r' bs ∧
      ∃ c, ofSupply ⟨"x.s"⟩ r = some c ∧ c.turns.length ≤ 6 ∧
        Orderly (marksFrom .start bs) c.turns ∧
        c.scan = ⟨[.ofKeyword Register.accumulator ⟨"x.s"⟩ 1], some e⟩ := by
  intro e bs r
  have hreset : Supply.reset r = (.ok (), { r with resets := 1 }) := rfl
  have hr : Supply.Yields e { r with resets := 1 } bs :=
    .next rfl (.next rfl (.next rfl (.next rfl (.next rfl (.next rfl (.fails rfl))))))
  obtain ⟨c, hc, hlength, horderly, -, hscan⟩ := ends_in_order ⟨"x.s"⟩ hreset hr
  refine ⟨_, hreset, hr, c, hc, hlength, horderly, (hscan (List.cons_ne_nil _ _)).trans ?_⟩
  decide +kernel

end

end Scanner

end Asm6502
