import Asm6502.Proofs.Listings
import Mathlib.Data.List.Flatten
import Mathlib.Order.Bounds.Basic

/-!
# Writers that run out of room

A line reaches a writer in pieces, and a writer takes a piece in parts. Where these are cut is of no
consequence (`Writer.Fills.written`): a writer with room for `n` bytes gets the first `n` bytes of
what is written to it. So it gets the first `n` bytes of a listing, and the cursor stops on the
first token whose line is not among them as a whole (`Lexer.dump_until_full`).
-/

namespace Asm6502

/-! ## Writing in parts -/

namespace Writer

variable {ω : Type}

/-- Offers bytes until all of them are taken. An offer of which nothing is taken is a failure. -/
def offerAll (offer : Bytes → ω → Except String Nat × ω) (bytes : Bytes) (w : ω) :
    Except String Unit × ω :=
  if _h : bytes = [] then (.ok (), w)
  else
    match offer bytes w with
    | (.error reason, w) => (.error reason, w)
    | (.ok 0, w) => (.error "failed to write whole buffer", w)
    | (.ok (k + 1), w) => offerAll offer (bytes.drop (k + 1)) w
termination_by bytes.length
decreasing_by
  have hpos := List.length_pos_iff.2 _h
  rw [List.length_drop]
  omega

/-- Offers pieces one after another, up to the first that is not taken. -/
def offerEach (offer : Bytes → ω → Except String Nat × ω) : List Bytes → ω → Except String Unit × ω
  | [], w => (.ok (), w)
  | piece :: pieces, w =>
    match offerAll offer piece w with
    | (.error reason, w) => (.error reason, w)
    | (.ok (), w) => offerEach offer pieces w

/-- A writer that takes `n` bytes by `offer`, in parts of any size, and then no more. What is
written may be cut into any pieces. `Has` says what has been taken. -/
structure Fills [Writer ω] (offer : Bytes → ω → Except String Nat × ω) (n : Nat)
    (flushed : Except String Unit) (Has : Bytes → ω → Prop) : Prop where
  inPieces : ∀ bytes w, ∃ pieces : List Bytes,
    pieces.flatten = bytes ∧ write bytes w = offerEach offer pieces w
  takes : ∀ {got bytes w}, Has got w → got.length < n → bytes ≠ [] → ∃ k w',
    offer bytes w = (.ok k, w') ∧ 0 < k ∧ k ≤ bytes.length ∧ got.length + k ≤ n ∧
      Has (got ++ bytes.take k) w'
  refuses : ∀ {got bytes w}, Has got w → got.length = n → bytes ≠ [] → ∃ answer w',
    offer bytes w = (answer, w') ∧ (answer = .ok 0 ∨ ∃ reason, answer = .error reason) ∧ Has got w'
  flushes : ∀ {got w}, Has got w → ∃ w', flush w = (flushed, w') ∧ Has got w'

namespace Fills

variable [Writer ω] {offer : Bytes → ω → Except String Nat × ω} {n : Nat}
  {flushed : Except String Unit} {Has : Bytes → ω → Prop} {got bytes : Bytes} {w : ω}

/-- A part is taken only as long as there is room for it. -/
theorem part_taken (h : Fills offer n flushed Has) (hw : Has got w) (hle : got.length ≤ n)
    (hne : bytes ≠ []) {k : Nat} {w' : ω} (hoffer : offer bytes w = (.ok (k + 1), w')) :
    k < bytes.length ∧ got.length + (k + 1) ≤ n ∧ Has (got ++ bytes.take (k + 1)) w' := by
  rcases Nat.lt_or_eq_of_le hle with hlt | hfull
  · obtain ⟨k', w'', htaken, -, hk, hfits, hw'⟩ := h.takes hw hlt hne
    obtain ⟨hok, rfl⟩ := Prod.mk.inj (htaken.symm.trans hoffer)
    obtain rfl := Except.ok.inj hok
    exact ⟨hk, hfits, hw'⟩
  · obtain ⟨answer, w'', hrefused, hanswer, -⟩ := h.refuses hw hfull hne
    obtain ⟨rfl, -⟩ := Prod.mk.inj (hrefused.symm.trans hoffer)
    simp at hanswer

/-- If nothing is taken, there is no room. -/
theorem nothing_taken (h : Fills offer n flushed Has) (hw : Has got w) (hle : got.length ≤ n)
    (hne : bytes ≠ []) (hnot : ∀ k, (offer bytes w).1 ≠ .ok (k + 1)) :
    Has ((got ++ bytes).take n) (offer bytes w).2 ∧ n < got.length + bytes.length := by
  have hpos := List.length_pos_iff.2 hne
  rcases Nat.lt_or_eq_of_le hle with hlt | hfull
  · obtain ⟨k, w', htaken, hk, -⟩ := h.takes hw hlt hne
    obtain ⟨k, rfl⟩ := Nat.exists_eq_add_one.2 hk
    exact absurd (congrArg Prod.fst htaken) (hnot k)
  · obtain ⟨answer, w', hrefused, -, hw'⟩ := h.refuses hw hfull hne
    rw [hrefused, List.take_left' hfull]
    exact ⟨hw', by omega⟩

/-- All that there is room for is taken. -/
theorem offeredAll (h : Fills offer n flushed Has) (bytes : Bytes) (hw : Has got w)
    (hle : got.length ≤ n) : ∃ answer w', offerAll offer bytes w = (answer, w') ∧
      Has ((got ++ bytes).take n) w' ∧ (answer = .ok () ↔ got.length + bytes.length ≤ n) := by
  fun_induction offerAll offer bytes w generalizing got with
  | case1 w =>
    refine ⟨_, _, rfl, ?_, by simpa using hle⟩
    rwa [List.append_nil, List.take_of_length_le hle]
  | case2 bytes w hne reason w' hoffer =>
    obtain ⟨hw', hshort⟩ := h.nothing_taken hw hle hne (by simp [hoffer])
    rw [hoffer] at hw'
    exact ⟨_, _, rfl, hw', nofun, by omega⟩
  | case3 bytes w hne w' hoffer =>
    obtain ⟨hw', hshort⟩ := h.nothing_taken hw hle hne (by simp [hoffer])
    rw [hoffer] at hw'
    exact ⟨_, _, rfl, hw', nofun, by omega⟩
  | case4 bytes w hne k w' hoffer ih =>
    obtain ⟨hk, hfits, hw'⟩ := h.part_taken hw hle hne hoffer
    have hlength : (got ++ bytes.take (k + 1)).length = got.length + (k + 1) := by
      rw [List.length_append, List.length_take_of_le hk]
    obtain ⟨answer, last, hrest, hlast, hiff⟩ := ih hw' (hlength ▸ hfits)
    refine ⟨answer, last, hrest, ?_, ?_⟩
    · rwa [List.append_assoc, List.take_append_drop] at hlast
    · rw [hiff, hlength, List.length_drop]
      omega

/-- Cutting into pieces makes no difference. -/
theorem offeredEach (h : Fills offer n flushed Has) (pieces : List Bytes) (hw : Has got w)
    (hle : got.length ≤ n) : ∃ answer w', offerEach offer pieces w = (answer, w') ∧
      Has ((got ++ pieces.flatten).take n) w' ∧
      (answer = .ok () ↔ got.length + pieces.flatten.length ≤ n) := by
  induction pieces generalizing got w with
  | nil =>
    refine ⟨_, _, rfl, ?_, by simpa using hle⟩
    rwa [List.flatten_nil, List.append_nil, List.take_of_length_le hle]
  | cons piece pieces ih =>
    obtain ⟨answer, w', hfirst, hw', hiff⟩ := h.offeredAll piece hw hle
    rw [offerEach, hfirst, List.flatten_cons, ← List.append_assoc, List.length_append]
    by_cases hfits : got.length + piece.length ≤ n
    · obtain rfl := hiff.2 hfits
      have hlength : (got ++ piece).length = got.length + piece.length := List.length_append
      rw [List.take_of_length_le (hlength ▸ hfits)] at hw'
      obtain ⟨answer, last, hrest, hlast, hiff⟩ := ih hw' (hlength ▸ hfits)
      refine ⟨answer, last, hrest, hlast, ?_⟩
      rw [hiff, hlength, Nat.add_assoc]
    · -- the pieces that follow are not offered, and there is no room for them
      cases answer with
      | ok => exact absurd (hiff.1 rfl) hfits
      | error reason =>
        refine ⟨_, _, rfl, ?_, nofun, by omega⟩
        rwa [List.take_append_of_le_length (by rw [List.length_append]; omega)]

theorem written (h : Fills offer n flushed Has) (bytes : Bytes) (hw : Has got w)
    (hle : got.length ≤ n) : ∃ answer w', write bytes w = (answer, w') ∧
      Has ((got ++ bytes).take n) w' ∧ (answer = .ok () ↔ got.length + bytes.length ≤ n) := by
  obtain ⟨pieces, rfl, hwrite⟩ := h.inPieces bytes w
  rw [hwrite]
  exact h.offeredEach pieces hw hle

theorem written_of_room (h : Fills offer n flushed Has) (bytes : Bytes) (hw : Has got w)
    (hroom : got.length + bytes.length ≤ n) :
    ∃ w', write bytes w = (.ok (), w') ∧ Has (got ++ bytes) w' := by
  obtain ⟨answer, w', hwrite, hw', hiff⟩ := h.written bytes hw (by omega)
  obtain rfl := hiff.2 hroom
  rw [List.take_of_length_le (by rwa [List.length_append])] at hw'
  exact ⟨w', hwrite, hw'⟩

theorem written_of_shortage (h : Fills offer n flushed Has) (bytes : Bytes) (hw : Has got w)
    (hle : got.length ≤ n) (hshort : n < got.length + bytes.length) :
    ∃ reason w', write bytes w = (.error reason, w') ∧ Has ((got ++ bytes).take n) w' := by
  obtain ⟨answer, w', hwrite, hw', hiff⟩ := h.written bytes hw hle
  cases answer with
  | ok => exact absurd (hiff.1 rfl) (Nat.not_le_of_lt hshort)
  | error reason => exact ⟨reason, w', hwrite, hw'⟩

end Fills

end Writer

/-! ## Sinks with a limit -/

namespace Sink

/-- The sink `v` is what `w` becomes, with room for `n` bytes at first, when it has taken `got`. -/
structure Taken (w : Sink) (n : Nat) (got : Bytes) (v : Sink) : Prop where
  received : v.received.toList = w.received.toList ++ got
  room : v.room = some (n - got.length)
  flushFault : v.flushFault = w.flushFault

theorem write_eq (bytes : Bytes) (w : Sink) : w.write bytes = Writer.offerAll offer bytes w := by
  fun_induction Sink.write bytes w with
  | case1 w => simp [Writer.offerAll]
  | case2 bytes w hne reason w' hoffer => simp [Writer.offerAll, hne, hoffer]
  | case3 bytes w hne n w' hoffer ih =>
    obtain ⟨n, rfl⟩ := Nat.exists_eq_add_one.2 (offer_eq_ok hne hoffer)
    rw [Writer.offerAll, dif_neg hne, hoffer, ih]

variable {w v : Sink} {n : Nat} {got bytes : Bytes}

theorem Taken.offer_of_room (h : Taken w n got v) (hlt : got.length < n) (hne : bytes ≠ []) :
    ∃ k v', v.offer bytes = (.ok k, v') ∧ 0 < k ∧ k ≤ bytes.length ∧ got.length + k ≤ n ∧
      Taken w n (got ++ bytes.take k) v' := by
  have hpos := List.length_pos_iff.2 hne
  have hroom : ¬ v.room = some 0 := by
    rw [h.room, Option.some.injEq]
    omega
  rw [offer, if_neg hroom, h.room, Option.getD_some]
  dsimp only
  generalize hfitting : min bytes.length (n - got.length) = fitting
  generalize hk : min fitting _ = k
  refine ⟨k, _, rfl, by omega, by omega, by omega, ?_, ?_, h.flushFault⟩
  · simp [h.received]
  · rw [Option.map_some, List.length_append, List.length_take_of_le (by omega), Nat.sub_sub]

theorem Taken.offer_of_full (h : Taken w n got v) (hfull : got.length = n) :
    v.offer bytes = (.error full, v) := by
  rw [offer, if_pos (by rw [h.room, hfull, Nat.sub_self])]

theorem fills (w : Sink) (n : Nat) : Writer.Fills offer n w.flush.1 (Taken w n) where
  inPieces bytes v := ⟨[bytes], by simp, by
    show v.write bytes = _
    rw [write_eq]
    simp only [Writer.offerEach]
    split <;> simp_all⟩
  takes := Taken.offer_of_room
  refuses h hfull _ := ⟨_, _, h.offer_of_full hfull, .inr ⟨_, rfl⟩, h⟩
  flushes := by
    intro got v h
    refine ⟨v, ?_, h⟩
    show v.flush = _
    unfold flush
    rw [h.flushFault]
    cases w.flushFault <;> rfl

end Sink

/-! ## Listings for writers that run out of room -/

namespace Lexer

open Writer (Fills)

variable {ρ ω : Type} [Writer ω] {l l' : Lexer ρ} {t : Token} {w w' w'' : ω}

/-- The lines of the listing from the cursor on. -/
def lines (l : Lexer ρ) : List Bytes := (l.tokens.toList.drop l.index).map Token.listingBytes

theorem dump_of_write_error {reason : String} (hget : l.get = .ok t)
    (hwrite : Writer.write t.listingBytes w = (.error reason, w')) :
    l.dump w = ((.error (.ofCause (.writeFailed reason)), l), w') := by
  rw [dump, hget]
  simp only [hwrite]

theorem dump_of_next_ok (hget : l.get = .ok t)
    (hwrite : Writer.write t.listingBytes w = (.ok (), w')) (hn : l.next = (.ok (), l')) :
    l.dump w = l'.dump w' := by
  rw [dump, hget]
  simp only [hwrite]
  split
  · rename_i l'' hn'
    obtain ⟨-, rfl⟩ := Prod.mk.inj (hn.symm.trans hn')
    rfl
  · rename_i hn'
    simp [hn] at hn'

theorem dump_of_last {flushed : Except String Unit} {index : Nat} (hget : l.get = .ok t)
    (hwrite : Writer.write t.listingBytes w = (.ok (), w'))
    (hn : l.next = (.error (.ofCause (.noNextToken index)), l'))
    (hflush : Writer.flush w' = (flushed, w'')) :
    l.dump w = ((flushed.mapError fun reason => .ofCause (.flushFailed reason), l'), w'') := by
  rw [dump, hget]
  simp only [hwrite]
  split
  · rename_i hn'
    simp [hn] at hn'
  · rename_i e l'' hn'
    obtain ⟨he, rfl⟩ := Prod.mk.inj (hn.symm.trans hn')
    obtain rfl := Except.error.inj he
    have hcode : (Error.ofCause (.noNextToken index)).code = .noNextToken := rfl
    rw [if_pos hcode, hflush]
    cases flushed <;> rfl

variable {a : Arena Token} {s : List (Handle × Token)}

theorem Stands.lines_eq (hl : Stands a s l) : l.lines = hl.current.2.listingBytes ::
    ((s.map (·.2)).drop (l.index + 1)).map Token.listingBytes := by
  rw [lines, hl.tokens, hl.holds.toList_eq, hl.drop_eq, List.map_cons]

theorem Stands.lines_last (hl : Stands a s l) (hlast : s.length ≤ l.index + 1) :
    l.lines = [hl.current.2.listingBytes] := by
  rw [hl.lines_eq, List.drop_of_length_le (by simpa using hlast), List.map_nil]

theorem Stands.lines_next (hl : Stands a s l) (hl' : Stands a s l') (hi : l'.index = l.index + 1) :
    l.lines = hl.current.2.listingBytes :: l'.lines := by
  rw [hl.lines_eq, ← hi, lines, hl'.tokens, hl'.holds.toList_eq]

theorem lines_of_index {k : Nat} (htokens : l'.tokens = l.tokens) (hi : l'.index = l.index + k) :
    l'.lines = l.lines.drop k := by
  rw [lines, lines, htokens, hi, ← List.drop_drop, List.map_drop]

theorem Stands.received [Reader ρ] (hl : Stands a s l) {v : Sink} (hv : v.Fresh) :
    (l.dump v).2.received.toList = l.lines.flatten := by
  rw [dump_received l hv.room, hv.received, List.nil_append, hl.walk, lines, hl.tokens,
    hl.holds.toList_eq, List.flatMap_def]

variable {offer : Bytes → ω → Except String Nat × ω} {n : Nat} {flushed : Except String Unit}
  {Has : Bytes → ω → Prop} {got : Bytes}

/-- A line that fits and is not the last is taken, and the dump goes on behind it. -/
theorem Stands.dump_line (hl : Stands a s l) (hfills : Fills offer n flushed Has) (hw : Has got w)
    (hmore : l.index + 1 < s.length)
    (hroom : got.length + hl.current.2.listingBytes.length ≤ n) :
    ∃ l' w', l.dump w = l'.dump w' ∧ Stands a s l' ∧ l'.index = l.index + 1 ∧
      l.lines = hl.current.2.listingBytes :: l'.lines ∧
      Has (got ++ hl.current.2.listingBytes) w' := by
  obtain ⟨w', hwrite, hw'⟩ := hfills.written_of_room hl.current.2.listingBytes hw hroom
  obtain ⟨l', hn, hi, hl'⟩ := hl.next_ok hmore
  exact ⟨l', w', dump_of_next_ok hl.get hwrite hn, hl', hi, hl.lines_next hl' hi, hw'⟩

/-- If there is room for all the lines, the writer gets them, and flushing them decides. -/
theorem Stands.dump_of_room (hl : Stands a s l) (hfills : Fills offer n flushed Has)
    (hw : Has got w) (hroom : got.length + l.lines.flatten.length ≤ n) : ∃ l' w',
      l.dump w = ((flushed.mapError fun reason => .ofCause (.flushFailed reason), l'), w') ∧
      Stands a s l' ∧ l'.index + 1 = s.length ∧ Has (got ++ l.lines.flatten) w' := by
  -- by induction on the lines: each moves from what is to come to what the writer has
  generalize hls : l.lines = ls at hroom ⊢
  induction ls generalizing l w got with
  | nil => simp [hl.lines_eq] at hls
  | cons line ls ih =>
    obtain rfl : hl.current.2.listingBytes = line := (List.cons.inj (hl.lines_eq ▸ hls)).1
    rw [List.flatten_cons, List.length_append] at hroom
    by_cases hmore : l.index + 1 < s.length
    · obtain ⟨l', w', hdump, hl', -, hlines, hw'⟩ := hl.dump_line hfills hw hmore (by omega)
      obtain rfl := (List.cons.inj (hlines.symm.trans hls)).2
      rw [hdump, List.flatten_cons, ← List.append_assoc]
      exact ih hl' hw' rfl (by rw [List.length_append]; omega)
    · have hlast : s.length ≤ l.index + 1 := by omega
      obtain rfl : [] = ls := (List.cons.inj (hl.lines_last hlast ▸ hls)).2
      obtain ⟨w', hwrite, hw'⟩ := hfills.written_of_room hl.current.2.listingBytes hw (by omega)
      obtain ⟨w'', hflush, hw''⟩ := hfills.flushes hw'
      refine ⟨l, w'', dump_of_last hl.get hwrite (hl.next_error hlast) hflush, hl, ?_, ?_⟩
      · have := hl.index_lt
        omega
      · rwa [List.flatten_singleton]

/-- If there is not room for all the lines, the writer gets what there is room for, and the cursor
stays on the line that did not fit. -/
theorem Stands.dump_of_shortage (hl : Stands a s l) (hfills : Fills offer n flushed Has)
    (hw : Has got w) (hle : got.length ≤ n) (hshort : n < got.length + l.lines.flatten.length) :
    ∃ k reason l' w', l.dump w = ((.error (.ofCause (.writeFailed reason)), l'), w') ∧
      Stands a s l' ∧ l'.index = l.index + k ∧ Has ((got ++ l.lines.flatten).take n) w' ∧
      got.length + (l.lines.take k).flatten.length ≤ n ∧
      n < got.length + (l.lines.take (k + 1)).flatten.length := by
  generalize hls : l.lines = ls at hshort ⊢
  induction ls generalizing l w got with
  | nil => simp [hl.lines_eq] at hls
  | cons line ls ih =>
    obtain rfl : hl.current.2.listingBytes = line := (List.cons.inj (hl.lines_eq ▸ hls)).1
    rw [List.flatten_cons, List.length_append] at hshort
    by_cases hroom : got.length + hl.current.2.listingBytes.length ≤ n
    · -- the line fits, so it is not the last one
      have hmore : l.index + 1 < s.length := by
        by_contra hlast
        obtain rfl : [] = ls := (List.cons.inj (hl.lines_last (by omega) ▸ hls)).2
        simp at hshort
        omega
      obtain ⟨l', w', hdump, hl', hi, hlines, hw'⟩ := hl.dump_line hfills hw hmore hroom
      obtain rfl := (List.cons.inj (hlines.symm.trans hls)).2
      have hlength : (got ++ hl.current.2.listingBytes).length = _ := List.length_append
      obtain ⟨k, reason, last, v, hrest, hlast, hk, hv, hbefore, hafter⟩ :=
        ih hl' hw' (hlength ▸ hroom) rfl (by omega)
      refine ⟨k + 1, reason, last, v, hdump.trans hrest, hlast, by omega, ?_, ?_, ?_⟩
      · rwa [List.flatten_cons, ← List.append_assoc]
      · simp only [List.take_succ_cons, List.flatten_cons, List.length_append]
        omega
      · simp only [List.take_succ_cons, List.flatten_cons, List.length_append] at hafter ⊢
        omega
    · obtain ⟨reason, w', hwrite, hw'⟩ :=
        hfills.written_of_shortage hl.current.2.listingBytes hw hle (by omega)
      refine ⟨0, reason, l, w', dump_of_write_error hl.get hwrite, hl, rfl, ?_, by simpa, ?_⟩
      · rwa [List.flatten_cons, ← List.append_assoc,
          List.take_append_of_le_length (by rw [List.length_append]; omega)]
      · simp only [List.take_succ_cons, List.take_zero, List.flatten_singleton]
        omega

theorem isLeast_of_cut {ls : List Bytes} {i k : Nat} (hbefore : (ls.take k).flatten.length ≤ n)
    (hafter : n < (ls.take (k + 1)).flatten.length) :
    IsLeast {j | i ≤ j ∧ n < (ls.take (j + 1 - i)).flatten.length} (i + k) := by
  refine ⟨⟨Nat.le_add_right i k, ?_⟩, fun j hj => ?_⟩
  · rwa [Nat.add_assoc, Nat.add_sub_cancel_left]
  · obtain ⟨hij, hj⟩ := hj
    by_contra hlt
    have hprefix : ls.take (j + 1 - i) <+: ls.take k := List.take_prefix_take_left (by omega)
    have hlength := hprefix.sublist.flatten.length_le
    omega

variable {σ : Type} [Reader ρ] [Writer σ] {r : ρ} {made : Lexer ρ} {us : List (Use σ)}

/-- A writer with room for `n` bytes gets the first `n` bytes of the listing. The cursor ends on the
first token whose line did not fit, and a further listing starts with that line. If all lines fit,
the cursor ends on the last token, and the listing succeeds if flushing does. -/
theorem dump_until_full (hmade : (ofReader r).1 = .ok made) (hopen : .close ∉ us)
    (hfills : Fills offer n flushed Has) (hw : Has [] w) :
    let l := made.uses us
    let total := l.lines.flatten.length
    ∃ answer l' w', l.dump w = ((answer, l'), w') ∧ Follows made.tokens l' ∧
      Has (l.lines.flatten.take n) w' ∧
      (answer = .ok () ↔ total ≤ n ∧ flushed = .ok ()) ∧
      (∀ e, answer = .error e → e.code = .io) ∧
      (total ≤ n → l'.index + 1 = l'.size) ∧
      (n < total →
        IsLeast {j | l.index ≤ j ∧ n < (l.lines.take (j + 1 - l.index)).flatten.length} l'.index ∧
        ∀ v : Sink, v.Fresh →
          (l'.dump v).2.received.toList = (l.lines.drop (l'.index - l.index)).flatten) := by
  intro l total
  obtain ⟨s, ts, hstands, hs, hts⟩ := ofReader_stands hmade
  have hl : Stands made.tokens s l := (hstands.uses us).1 hopen
  rcases Nat.lt_or_ge n total with hshort | hroom
  · obtain ⟨k, reason, l', w', hdump, hl', hk, hw', hbefore, hafter⟩ :=
      hl.dump_of_shortage hfills hw (Nat.zero_le n) (by rwa [List.length_nil, Nat.zero_add])
    rw [List.length_nil, Nat.zero_add] at hbefore hafter
    refine ⟨_, l', w', hdump, hl'.follows hs hts, hw', ⟨nofun, fun h => absurd h.1 (by omega)⟩,
      ?_, fun h => absurd h (by omega), fun _ => ⟨?_, fun v hv => ?_⟩⟩
    · rintro e he
      obtain rfl := Except.error.inj he
      rfl
    · rw [hk]
      exact isLeast_of_cut hbefore hafter
    · rw [hl'.received hv, lines_of_index (hl'.tokens.trans hl.tokens.symm) hk, hk,
        Nat.add_sub_cancel_left]
  · obtain ⟨l', w', hdump, hl', hlast, hw'⟩ :=
      hl.dump_of_room hfills hw (by rwa [List.length_nil, Nat.zero_add])
    refine ⟨_, l', w', hdump, hl'.follows hs hts, ?_, ?_, ?_, fun _ => hl'.size ▸ hlast,
      fun h => absurd h (by omega)⟩
    · rwa [List.take_of_length_le hroom]
    · cases flushed <;> simp [Except.mapError, hroom]
    · rintro e he
      cases flushed with
      | ok => cases he
      | error reason =>
        obtain rfl := Except.error.inj he
        rfl

/-- A sink that takes one to three bytes at a time has room for just two of three lines: the cursor
is on the last token although nothing of its line was taken. -/
theorem dump_until_full_between_lines :
    let r := MemoryReader.ofBytes (Ascii.bytes "X,Y") ⟨"x.s"⟩
    let us : List (Use Sink) := [.next]
    let w : Sink := { room := some 39, pace := fun taken _ => taken % 3 + 1 }
    ∃ made, (ofReader r).1 = .ok made ∧ .close ∉ us ∧
      Fills Sink.offer 39 (.ok ()) (Sink.Taken w 39) ∧ Sink.Taken w 39 [] w ∧
      ∃ e l' w', (made.uses us).dump w = ((.error e, l'), w') ∧ e.code = .io ∧ l'.index = 3 ∧
        w'.received.toList = Ascii.bytes "[SYMBOL:0] (x.s@1)\n[OPERAND:2] (x.s@1)\n" := by
  intro r us w
  have hmodel : (ofReader r).1.map (fun made => ((made.uses us).index, (made.uses us).lines)) =
      .ok (1, [Ascii.bytes "[SYMBOL:0] (x.s@1)\n", Ascii.bytes "[OPERAND:2] (x.s@1)\n",
        Ascii.bytes "[END:0] END\n"]) := by decide +kernel
  have hopen : .close ∉ us := by simp [us]
  have hfills : Fills Sink.offer 39 (.ok ()) (Sink.Taken w 39) := Sink.fills w 39
  have hw : Sink.Taken w 39 [] w := ⟨by simp, rfl, rfl⟩
  cases hmade : (ofReader r).1 with
  | error e => simp [hmade, Except.map] at hmodel
  | ok made =>
    rw [hmade] at hmodel
    obtain ⟨hindex, hlines⟩ := Prod.mk.inj (Except.ok.inj hmodel)
    obtain ⟨answer, l', w', hdump, -, hw', hok, hio, -, hshort⟩ :=
      dump_until_full hmade hopen hfills hw
    simp only [hlines, hindex] at hw' hok hshort
    obtain ⟨hleast, -⟩ := hshort (by decide)
    have hthird := hleast.unique (isLeast_of_cut (k := 2) (by decide) (by decide))
    cases answer with
    | ok => exact absurd (hok.1 rfl).1 (by decide)
    | error e =>
      exact ⟨made, rfl, hopen, hfills, hw, e, l', w', hdump, hio e rfl, hthird,
        hw'.received.trans rfl⟩

end Lexer

end Asm6502
