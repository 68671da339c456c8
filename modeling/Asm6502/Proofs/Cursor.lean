import Asm6502.Listing
import Asm6502.Proofs.Spelling
import Asm6502.Reader.Faulty

/-!
# Cursors

A lexer keeps its place twice, as an index and as the handle of the token at that index. Whatever
is done with it, the two agree (`Stands`) until it is closed, and from then on it has no tokens
(`Emptied`): each use of a lexer keeps the one or leads to the other, so every run of uses does.
`Follows` and `ShowsNothing` say what can be seen of a lexer in either state.
-/

namespace Asm6502

open Arena (Holds handles)

theorem Token.Spellable.ne_finish {t : Token} (h : t.Spellable) : t ≠ .finish := by
  obtain ⟨i, source, line, rfl, -⟩ := h
  cases i <;> simp [Item.token, Token.finish, Token.ofKeyword, Token.ofText, Token.ofScalar]

namespace Lexer

variable {ρ ω : Type}

/-- The tokens from the cursor on, got one after another. -/
def walk (l : Lexer ρ) : List Token :=
  match l.get with
  | .error _ => []
  | .ok t =>
    match _h : l.next with
    | (.ok (), l') => t :: walk l'
    | (.error _, _) => [t]
termination_by l.tokens.size - l.index
decreasing_by
  obtain ⟨ht, hi, hlt⟩ := next_eq_ok _h
  rw [ht, hi]
  omega

/-- What can be done with a lexer. -/
inductive Use (ω : Type) where
  | get
  | next
  | reset
  | dump (w : ω)
  | close

/-- The lexer that a use leaves. -/
def use [Reader ρ] [Writer ω] (l : Lexer ρ) : Use ω → Lexer ρ
  | .get => l
  | .next => l.next.2
  | .reset => l.reset.1.2
  | .dump w => (l.dump w).1.2
  | .close => l.close

/-- The lexer that uses one after another leave. -/
def uses [Reader ρ] [Writer ω] (l : Lexer ρ) (us : List (Use ω)) : Lexer ρ := us.foldl use l

variable {a : Arena Token} {s : List (Handle × Token)} {l : Lexer ρ}

/-! ## Moving the cursor -/

/-- Index and handle of the cursor are those of one of the tokens `s`, which `a` holds. -/
structure Stands (a : Arena Token) (s : List (Handle × Token)) (l : Lexer ρ) : Prop where
  holds : Holds a s
  tokens : l.tokens = a
  index_lt : l.index < s.length
  cursor : l.cursor = (handles s)[l.index]?

/-- The token that the cursor is on, with its handle. -/
def Stands.current (hl : Stands a s l) : Handle × Token := s.get ⟨l.index, hl.index_lt⟩

theorem Stands.getElem?_index (hl : Stands a s l) : s[l.index]? = some hl.current := by
  rw [List.getElem?_eq_getElem hl.index_lt]
  rfl

theorem Stands.cursor_eq (hl : Stands a s l) : l.cursor = some hl.current.1 := by
  rw [hl.cursor, handles, List.getElem?_map, hl.getElem?_index]
  rfl

theorem Stands.entry (hl : Stands a s l) : ∃ e, l.tokens.entry? hl.current.1 = some e ∧
    e.value = hl.current.2 ∧ e.next = (handles s)[l.index + 1]? := by
  rw [hl.tokens]
  exact hl.holds.entry_getElem hl.index_lt

theorem Stands.get (hl : Stands a s l) : l.get = .ok hl.current.2 := by
  obtain ⟨e, he, hv, -⟩ := hl.entry
  simp [Lexer.get, hl.cursor_eq, Arena.value?, he, hv]

theorem Stands.size (hl : Stands a s l) : l.size = s.length := by
  rw [Lexer.size, hl.tokens, hl.holds.size]

theorem Stands.next_ok (hl : Stands a s l) (hlt : l.index + 1 < s.length) :
    ∃ l', l.next = (.ok (), l') ∧ l'.index = l.index + 1 ∧ Stands a s l' := by
  obtain ⟨e, he, -, hnext⟩ := hl.entry
  have hmore : ¬ l.tokens.size ≤ l.index + 1 := by
    have hsize := hl.size
    rw [Lexer.size] at hsize
    omega
  refine ⟨{ l with index := l.index + 1, cursor := (handles s)[l.index + 1]? }, ?_, rfl,
    hl.holds, hl.tokens, hlt, rfl⟩
  simp [Lexer.next, hmore, hl.cursor_eq, Arena.next?, he, hnext]

theorem Stands.next_error (hl : Stands a s l) (hle : s.length ≤ l.index + 1) :
    l.next = (.error (.ofCause (.noNextToken l.index)), l) := by
  have hlast : l.tokens.size ≤ l.index + 1 := by
    have hsize := hl.size
    rw [Lexer.size] at hsize
    omega
  simp [Lexer.next, hlast]

theorem Stands.next (hl : Stands a s l) : Stands a s l.next.2 := by
  by_cases hlt : l.index + 1 < s.length
  · obtain ⟨l', hn, -, hl'⟩ := hl.next_ok hlt
    rwa [hn]
  · rwa [hl.next_error (by omega)]

/-- The tokens that are still to come, the current one first. -/
theorem Stands.drop_eq (hl : Stands a s l) : (s.map (·.2)).drop l.index =
    hl.current.2 :: (s.map (·.2)).drop (l.index + 1) := by
  rw [List.drop_eq_getElem_cons (by simpa using hl.index_lt), List.getElem_map]
  rfl

theorem Stands.walk (hl : Stands a s l) : l.walk = (s.map (·.2)).drop l.index := by
  fun_induction Lexer.walk l with
  | case1 l e hget => simp [hl.get] at hget
  | case2 l t hget l' hn ih =>
    have hl' : Stands a s l' := by simpa [hn] using hl.next
    obtain rfl : _ = t := Except.ok.inj (hl.get.symm.trans hget)
    rw [ih hl', (next_eq_ok hn).2.1, hl.drop_eq]
  | case3 l t hget e l' hn =>
    have hlast : s.length ≤ l.index + 1 := by
      by_contra hlt
      obtain ⟨l', hn', -⟩ := hl.next_ok (by omega)
      simp [hn] at hn'
    obtain rfl : _ = t := Except.ok.inj (hl.get.symm.trans hget)
    rw [hl.drop_eq, List.drop_of_length_le (by simpa using hlast)]

/-- The final token is the last one and no other. -/
theorem Stands.finish_iff (hl : Stands a s l) {ts : List Token}
    (hs : s.map (·.2) = ts ++ [.finish]) (hts : .finish ∉ ts) :
    l.get = .ok .finish ↔ l.index + 1 = l.size := by
  have hlength : s.length = ts.length + 1 := by
    rw [← List.length_map (·.2), hs]
    simp
  have hcurrent : (ts ++ [Token.finish])[l.index]? = some hl.current.2 := by
    rw [← hs, List.getElem?_map, hl.getElem?_index]
    rfl
  rw [hl.get, hl.size, hlength, Except.ok.injEq]
  by_cases hlt : l.index < ts.length
  · rw [List.getElem?_append_left hlt] at hcurrent
    have hmem := List.mem_of_getElem? hcurrent
    refine ⟨fun h => absurd (h ▸ hmem) hts, fun h => ?_⟩
    omega
  · have hindex : l.index = ts.length := by
      have := hl.index_lt
      omega
    simp only [hindex, List.getElem?_concat_length, Option.some.injEq] at hcurrent
    simp [hindex, ← hcurrent]

/-- Writing a listing moves the cursor by `next` only. -/
theorem dump_induction [Writer ω] {P : Lexer ρ → Prop} (hnext : ∀ l, P l → P l.next.2) (w : ω)
    (hl : P l) : P (l.dump w).1.2 := by
  have moved : ∀ {l l' : Lexer ρ} {r}, l.next = (r, l') → P l → P l' := by
    intro l l' r hn hl
    have h := hnext l hl
    rwa [hn] at h
  fun_induction dump l w with
  | case1 => exact hl
  | case2 => exact hl
  | case3 l w t _ w' _ l' hn ih => exact ih (moved hn hl)
  | case4 l w t _ w' _ e l' hn => exact moved hn hl
  | case5 l w t _ w' _ e l' hn => exact moved hn hl
  | case6 l w t _ w' _ e l' hn => exact moved hn hl

/-- There are no tokens, and the cursor is on none. -/
structure Emptied (l : Lexer ρ) : Prop where
  holds : Holds l.tokens []
  index : l.index = 0
  cursor : l.cursor = none

theorem Emptied.get (hl : Emptied l) : l.get = .error (.ofCause (.indexOutOfRange 0)) := by
  simp [Lexer.get, hl.cursor, hl.index, hl.holds.handleAt_eq]

theorem Emptied.next (hl : Emptied l) : l.next = (.error (.ofCause (.noNextToken 0)), l) := by
  simp [Lexer.next, hl.index, hl.holds.size]

theorem Emptied.dump [Writer ω] (hl : Emptied l) (w : ω) :
    l.dump w = ((.error (.ofCause (.indexOutOfRange 0)), l), w) := by
  rw [Lexer.dump, hl.get]

/-! ## Runs of uses -/

variable [Reader ρ] [Writer ω]

/-- A lexer is rewound if its stream is; else it keeps its place. -/
theorem reset_cases (l : Lexer ρ) :
    l.stream.reset.1 = .ok () ∧ l.reset.1 = (.ok (), { l with
      stream := l.stream.reset.2, index := 0, cursor := l.tokens.head }) ∨
    ∃ e, l.stream.reset.1 = .error e ∧
      l.reset.1 = (.error e, { l with stream := l.stream.reset.2 }) := by
  unfold reset
  split
  · rename_i e st h
    exact .inr ⟨e, by rw [h], by rw [h]⟩
  · rename_i st h
    exact .inl ⟨by rw [h], by rw [h]⟩

theorem reset_eq_ok {l' : Lexer ρ} {ev : List Event} (h : l.reset = ((.ok (), l'), ev)) :
    l' = { l with stream := l.stream.reset.2, index := 0, cursor := l.tokens.head } := by
  rcases l.reset_cases with ⟨-, hr⟩ | ⟨e, -, hr⟩
  · rw [h] at hr
    exact (Prod.mk.inj hr).2
  · rw [h] at hr
    cases (Prod.mk.inj hr).1

theorem Stands.reset (hl : Stands a s l) : Stands a s l.reset.1.2 := by
  rcases l.reset_cases with ⟨-, hr⟩ | ⟨e, -, hr⟩
  · rw [hr]
    refine ⟨hl.holds, hl.tokens, Nat.zero_lt_of_lt hl.index_lt, ?_⟩
    show l.tokens.head = _
    rw [hl.tokens, hl.holds.head, Arena.front_eq_head?, List.head?_eq_getElem?]
  · rw [hr]
    exact ⟨hl.holds, hl.tokens, hl.index_lt, hl.cursor⟩

theorem Stands.use (hl : Stands a s l) {u : Use ω} (hu : u ≠ .close) : Stands a s (l.use u) := by
  cases u with
  | get => exact hl
  | next => exact hl.next
  | reset => exact hl.reset
  | dump w => exact dump_induction (fun _ => Stands.next) w hl
  | close => exact absurd rfl hu

theorem Stands.close (hl : Stands a s l) : Emptied l.close :=
  ⟨(hl.tokens.symm ▸ hl.holds).clear, rfl, rfl⟩

theorem Emptied.use (hl : Emptied l) (u : Use ω) : Emptied (l.use u) := by
  cases u with
  | get => exact hl
  | next => simpa [Lexer.use, hl.next] using hl
  | reset =>
    show Emptied l.reset.1.2
    rcases l.reset_cases with ⟨-, hr⟩ | ⟨e, -, hr⟩
    · rw [hr]
      exact ⟨hl.holds, rfl, hl.holds.head⟩
    · rw [hr]
      exact ⟨hl.holds, hl.index, hl.cursor⟩
  | dump w => simpa [Lexer.use, hl.dump] using hl
  | close => exact ⟨hl.holds.clear, rfl, rfl⟩

theorem Emptied.uses (hl : Emptied l) (us : List (Use ω)) : Emptied (l.uses us) := by
  induction us generalizing l with
  | nil => exact hl
  | cons u us ih => exact ih (hl.use u)

/-- Index and handle agree until a lexer is closed, and then it is empty for good. -/
theorem Stands.uses (hl : Stands a s l) (us : List (Use ω)) :
    (.close ∉ us → Stands a s (l.uses us)) ∧ (.close ∈ us → Emptied (l.uses us)) := by
  induction us generalizing l with
  | nil => exact ⟨fun _ => hl, fun h => by cases h⟩
  | cons u us ih =>
    by_cases hu : u = .close
    · subst hu
      exact ⟨fun h => absurd List.mem_cons_self h, fun _ => hl.close.uses us⟩
    · obtain ⟨hopen, hclosed⟩ := ih (hl.use hu)
      refine ⟨fun h => hopen fun hm => h (List.mem_cons_of_mem _ hm), fun h => hclosed ?_⟩
      exact (List.mem_cons.1 h).resolve_left (Ne.symm hu)

/-! ## What can be seen -/

/-- What can be seen of a lexer over the tokens `a` as long as it is not closed. -/
structure Follows (a : Arena Token) (l : Lexer ρ) : Prop where
  tokens : l.tokens = a
  index_lt : l.index < l.size
  /-- The current token is the one at the index, whichever way it is looked up. -/
  get : ∃ h t, l.get = .ok t ∧ l.cursor = some h ∧ l.tokens.handleAt l.index = .ok h ∧
    l.tokens.value? h = some t ∧ l.tokens.toList[l.index]? = some t
  finish_iff : l.get = .ok .finish ↔ l.index + 1 = l.size
  next_ok_iff : l.next.1 = .ok () ↔ ¬ (l.get = .ok .finish ∧ l.index + 1 = l.size)
  next_ok : l.next.1 = .ok () → l.next.2.index = l.index + 1
  next_error : l.next.1 ≠ .ok () → l.next = (.error (.ofCause (.noNextToken l.index)), l)
  reset_answer : l.reset.1.1 = l.stream.reset.1
  reset_ok : l.reset.1.1 = .ok () → l.reset.1.2.index = 0
  reset_error : l.reset.1.1 ≠ .ok () → l.reset.1.2.index = l.index ∧
    l.reset.1.2.cursor = l.cursor ∧ l.reset.1.2.tokens = l.tokens
  walk : l.walk = l.tokens.toList.drop l.index

/-- What can be seen of a lexer that is closed. -/
structure ShowsNothing (l : Lexer ρ) : Prop where
  isEmpty : l.isEmpty = true
  toList : l.tokens.toList = []
  index : l.index = 0
  get : l.get = .error (.ofCause (.indexOutOfRange 0))
  next : l.next = (.error (.ofCause (.noNextToken 0)), l)
  /-- The writer is left as it was. -/
  dump : ∀ {ω : Type} [Writer ω] (w : ω),
    l.dump w = ((.error (.ofCause (.indexOutOfRange 0)), l), w)

omit [Reader ρ] in
theorem Emptied.showsNothing (hl : Emptied l) : ShowsNothing l where
  isEmpty := by simp [Lexer.isEmpty, Arena.isEmpty, hl.holds.size]
  toList := hl.holds.toList_eq
  index := hl.index
  get := hl.get
  next := hl.next
  dump := hl.dump

theorem Stands.follows (hl : Stands a s l) {ts : List Token} (hs : s.map (·.2) = ts ++ [.finish])
    (hts : .finish ∉ ts) : Follows a l := by
  have hlist : l.tokens.toList = s.map (·.2) := by rw [hl.tokens, hl.holds.toList_eq]
  have hfinish := hl.finish_iff hs hts
  refine
    { tokens := hl.tokens, index_lt := hl.size.symm ▸ hl.index_lt, get := ?get
      finish_iff := hfinish, next_ok_iff := ?next_ok_iff, next_ok := ?next_ok
      next_error := ?next_error, reset_answer := ?reset_answer, reset_ok := ?reset_ok
      reset_error := ?reset_error, walk := hlist ▸ hl.walk }
  case get =>
    obtain ⟨e, he, hv, -⟩ := hl.entry
    refine ⟨_, _, hl.get, hl.cursor_eq, ?_, by rw [Arena.value?, he]; exact congrArg some hv, ?_⟩
    · rw [hl.tokens, hl.holds.handleAt_eq, ← hl.cursor, hl.cursor_eq]
    · rw [hlist, List.getElem?_map, hl.getElem?_index]
      rfl
  case next_ok_iff =>
    rw [hfinish, and_self, hl.size]
    constructor
    · intro hn hlast
      rw [hl.next_error (by omega)] at hn
      cases hn
    · intro hmore
      have := hl.index_lt
      obtain ⟨l', hn, -⟩ := hl.next_ok (by omega)
      rw [hn]
  case next_ok =>
    intro hn
    have hok : l.next = (.ok (), l.next.2) := by rw [← hn]
    exact (next_eq_ok hok).2.1
  case next_error =>
    intro hn
    by_cases hlt : l.index + 1 < s.length
    · obtain ⟨l', hok, -⟩ := hl.next_ok hlt
      exact absurd (by rw [hok]) hn
    · exact hl.next_error (by omega)
  all_goals rcases l.reset_cases with ⟨hst, hr⟩ | ⟨e, hst, hr⟩ <;> simp [hst, hr]

/-- A lexer that was made stands on the first of its tokens. -/
theorem ofReader_eq_ok {r : ρ} (h : (ofReader r).1 = .ok l) :
    ∃ st ts, l = ⟨st, .ofList ts, 0, (Arena.ofList ts).head⟩ := by
  unfold ofReader at h
  split at h
  · cases h
  · simp only [ofStream] at h
    split at h
    · cases h
    · split at h
      · rename_i l' ev hreset
        obtain rfl := Except.ok.inj h
        exact ⟨_, _, reset_eq_ok hreset⟩
      · cases h

theorem ofReader_stands {r : ρ} (h : (ofReader r).1 = .ok l) :
    ∃ s ts, Stands l.tokens s l ∧ s.map (·.2) = ts ++ [.finish] ∧ .finish ∉ ts := by
  obtain ⟨source, fault?, bs, -, hscan⟩ := ofReader_scan r
  have htokens := hscan l h
  obtain ⟨st, ts, rfl⟩ := ofReader_eq_ok h
  obtain ⟨s, hs, hmap⟩ := Arena.holds_ofList ts
  rw [Arena.toList_ofList] at htokens
  refine ⟨s, _, ⟨hs, rfl, ?_, ?_⟩, hmap.trans htokens, ?_⟩
  · rw [← List.length_map (·.2), hmap, htokens]
    simp
  · show (Arena.ofList ts).head = _
    rw [hs.head, Arena.front_eq_head?, List.head?_eq_getElem?]
  · intro hmem
    exact (Scan.spellable_of_mem source fault? [] bs _ hmem).ne_finish rfl

/-- Whatever is done with a lexer, over whatever reader and with whatever writers: until it is
closed, its cursor shows the token at its index, and after that it shows nothing. -/
theorem cursor_agrees {r : ρ} (hl : (ofReader r).1 = .ok l) (us : List (Use ω)) :
    (.close ∉ us → Follows l.tokens (l.uses us)) ∧ (.close ∈ us → ShowsNothing (l.uses us)) := by
  obtain ⟨s, ts, hstands, hs, hts⟩ := ofReader_stands hl
  obtain ⟨hopen, hclosed⟩ := hstands.uses us
  exact ⟨fun h => (hopen h).follows hs hts, fun h => (hclosed h).showsNothing⟩

/-- A register and a comma from a reader that refuses the third reset, listed to a sink that takes
three bytes: the cursor stays on the comma. -/
theorem cursor_agrees_refused_reset :
    let r : FaultyReader := { path := ⟨"x.s"⟩, data := #[0x58, 0x2c], badReset := some 3 }
    let us : List (Use Sink) := [.next, .reset, .dump { room := some 3 }]
    ∃ l, (ofReader r).1 = .ok l ∧ (l.uses us).index = 1 ∧ Follows l.tokens (l.uses us) ∧
      ShowsNothing (l.uses (us ++ [.close, .reset])) := by
  intro r us
  have hindex : (ofReader r).1.map (fun l => (l.uses us).index) = .ok 1 := by decide +kernel
  cases hl : (ofReader r).1 with
  | error e => simp [hl, Except.map] at hindex
  | ok l =>
    refine ⟨l, rfl, ?_, (cursor_agrees hl us).1 (by simp [us]), (cursor_agrees hl _).2 (by simp)⟩
    simpa [hl, Except.map] using hindex

end Lexer

end Asm6502
