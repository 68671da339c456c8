import Asm6502.Proofs.Arena.Sequence

/-!
# Iteration from both ends

An iterator stands between the entries that were taken at its front and those that were taken at
its back (`Iter.Between`). Its two links go on into the entries of the other end once nothing is
left between them; only the count stops it there.

- A call at an end takes the entry next to it (`Between.next`, `Between.nextBack`), and no call
  takes anything when none is left (`Between.pull_nil`).
- Calls in any order take a beginning of the entries in order and an end of them in reverse
  (`Between.pulls`).
-/

namespace Asm6502.Arena

variable {α : Type}

/-- The ends of an iterator. -/
inductive End where
  | front
  | back
  deriving DecidableEq, Repr

namespace Iter

/-- The next value from an end. -/
def pull (it : Iter α) : End → Option α × Iter α
  | .front => it.next
  | .back => it.nextBack

/-- The answers of calls one after another, each with its end, and the iterator that they leave. -/
def pulls (it : Iter α) : List End → List (End × Option α) × Iter α
  | [] => ([], it)
  | e :: es => ((e, (it.pull e).1) :: (pulls (it.pull e).2 es).1, (pulls (it.pull e).2 es).2)

/-- The values that came from an end, in the order in which they came. -/
def taken (e : End) (answers : List (End × Option α)) : List α :=
  answers.filterMap fun answer => if answer.1 = e then answer.2 else none

theorem taken_cons_none (e e' : End) (answers : List (End × Option α)) :
    taken e ((e', none) :: answers) = taken e answers := by
  simp [taken]

theorem taken_cons_some (e e' : End) (v : α) (answers : List (End × Option α)) :
    taken e ((e', some v) :: answers) =
      if e' = e then v :: taken e answers else taken e answers := by
  by_cases he : e' = e <;> simp [taken, he]

/-- The iterator has taken `l` at the front of `a` and `r` at its back; `m` is left. -/
structure Between (a : Arena α) (l m r : List (Handle × α)) (it : Iter α) : Prop where
  holds : Holds a (l ++ (m ++ r))
  arena : it.arena = a
  front : it.front = Arena.front (m ++ r) none
  back : it.back = Arena.back none (l ++ m)
  remaining : it.remaining = m.length

variable {a : Arena α} {l m r s : List (Handle × α)} {it : Iter α} {p : Handle × α}

theorem between_iter (ha : Holds a s) : Between a [] s [] a.iter where
  holds := by simpa using ha
  arena := rfl
  front := by rw [List.append_nil]; exact ha.head
  back := ha.tail
  remaining := ha.size

/-! ## One call -/

theorem Between.next (h : Between a l (p :: m) r it) :
    ∃ it', it.next = (some p.2, it') ∧ Between a (l ++ [p]) m r it' := by
  have hentry : it.front.bind it.arena.entry? =
      some ⟨p.2, Arena.front (m ++ r) none, Arena.back none l⟩ := by
    rw [h.front, h.arena]
    exact h.holds.entry_eq
  have hremaining : it.remaining = m.length + 1 := h.remaining
  refine ⟨{ it with front := Arena.front (m ++ r) none, remaining := m.length }, ?_, ?_⟩
  · simp only [Iter.next, hremaining, hentry]
  · exact ⟨by simpa using h.holds, h.arena, rfl, by simpa using h.back, rfl⟩

theorem Between.nextBack (h : Between a l (m ++ [p]) r it) :
    ∃ it', it.nextBack = (some p.2, it') ∧ Between a l m (p :: r) it' := by
  have hholds : Holds a ((l ++ m) ++ p :: r) := by simpa using h.holds
  have hentry : it.back.bind it.arena.entry? =
      some ⟨p.2, Arena.front r none, Arena.back none (l ++ m)⟩ := by
    rw [h.back, h.arena, ← List.append_assoc, back_append]
    exact hholds.entry_eq
  have hremaining : it.remaining = m.length + 1 := by simpa using h.remaining
  refine ⟨{ it with back := Arena.back none (l ++ m), remaining := m.length }, ?_, ?_⟩
  · simp only [Iter.nextBack, hremaining, hentry]
  · exact ⟨by simpa using hholds, h.arena, by simpa using h.front, rfl, rfl⟩

/-- Nothing is left, whatever entries the ends still point at. -/
theorem Between.pull_nil (h : Between a l [] r it) (e : End) : it.pull e = (none, it) := by
  have hremaining : it.remaining = 0 := h.remaining
  cases e with
  | front => simp [pull, Iter.next, hremaining]
  | back => simp [pull, Iter.nextBack, hremaining]

/-- A call at an end takes what is left next to it. -/
theorem Between.pull (h : Between a l m r it) (e : End) :
    m = [] ∧ it.pull e = (none, it) ∨
    (∃ p m', m = p :: m' ∧ e = .front ∧
      ∃ it', it.pull e = (some p.2, it') ∧ Between a (l ++ [p]) m' r it') ∨
    ∃ m' p, m = m' ++ [p] ∧ e = .back ∧
      ∃ it', it.pull e = (some p.2, it') ∧ Between a l m' (p :: r) it' := by
  by_cases hm : m = []
  · subst hm
    exact .inl ⟨rfl, h.pull_nil e⟩
  right
  cases e with
  | front =>
    obtain ⟨p, m', rfl⟩ := List.exists_cons_of_ne_nil hm
    exact .inl ⟨p, m', rfl, rfl, h.next⟩
  | back =>
    obtain ⟨m', p, rfl⟩ := (List.eq_nil_or_concat' m).resolve_left hm
    exact .inr ⟨m', p, rfl, rfl, h.nextBack⟩

theorem Between.pull_isSome_iff (h : Between a l m r it) (e : End) :
    (it.pull e).1.isSome = true ↔ 0 < it.remaining := by
  rw [h.remaining, List.length_pos_iff]
  rcases h.pull e with ⟨hm, hit⟩ | ⟨p, m', hm, -, it', hit, -⟩ | ⟨m', p, hm, -, it', hit, -⟩
  all_goals simp [hm, hit]

/-! ## Calls in any order -/

theorem Between.pulls_nil (h : Between a l [] r it) (es : List End) :
    it.pulls es = (es.map (·, none), it) := by
  induction es with
  | nil => rfl
  | cons e es ih => rw [pulls, h.pull_nil, ih, List.map_cons]

/-- What calls in any order take was left before, and the rest of it is left behind. -/
theorem Between.pulls (h : Between a l m r it) (es : List End) :
    ∃ x m' y, m = x ++ (m' ++ y) ∧ taken .front (it.pulls es).1 = x.map (·.2) ∧
      taken .back (it.pulls es).1 = (y.map (·.2)).reverse ∧
      Between a (l ++ x) m' (y ++ r) (it.pulls es).2 := by
  induction es generalizing l m r it with
  | nil => exact ⟨[], m, [], by simp, rfl, rfl, by simpa [Iter.pulls] using h⟩
  | cons e es ih =>
    rcases h.pull e with ⟨rfl, hit⟩ | ⟨p, m', rfl, rfl, it', hit, hbetween⟩ |
      ⟨m', p, rfl, rfl, it', hit, hbetween⟩
    · obtain ⟨x, m', y, hm, hx, hy, hbetween⟩ := ih h
      refine ⟨x, m', y, hm, ?_, ?_, ?_⟩
      all_goals simpa [Iter.pulls, hit, taken_cons_none]
    · obtain ⟨x, m', y, rfl, hx, hy, hbetween⟩ := ih hbetween
      refine ⟨p :: x, m', y, rfl, ?_, ?_, ?_⟩
      · simp [Iter.pulls, hit, taken_cons_some, hx]
      · simp [Iter.pulls, hit, taken_cons_some, hy]
      · simpa [Iter.pulls, hit] using hbetween
    · obtain ⟨x, m', y, rfl, hx, hy, hbetween⟩ := ih hbetween
      refine ⟨x, m', y ++ [p], by simp, ?_, ?_, ?_⟩
      · simp [Iter.pulls, hit, taken_cons_some, hx]
      · simp [Iter.pulls, hit, taken_cons_some, hy]
      · simpa [Iter.pulls, hit] using hbetween

/-- Going back from the end of what is left gives it in reverse. -/
theorem Between.collect_nextBack (h : Between a l m r it) (n : Nat) :
    it.collect Iter.nextBack n = (m.map (·.2)).reverse.take n := by
  induction n generalizing m r it with
  | zero => simp [collect]
  | succ n ih =>
    rcases h.pull .back with ⟨rfl, hit⟩ | ⟨-, -, -, hend, -⟩ | ⟨m', p, rfl, -, it', hit, hbetween⟩
    · have hnone : it.nextBack = (none, it) := hit
      simp [collect, hnone]
    · cases hend
    · have hsome : it.nextBack = (some p.2, it') := hit
      simp [collect, hsome, ih hbetween]

end Iter

/-! ## Iterators of reachable arenas -/

open Iter (pull pulls taken)

/-- What an iterator over some values does when it is asked at its ends in any order. -/
structure Iterates (it : Iter α) (vs : List α) (es : List End) : Prop where
  front : taken .front (it.pulls es).1 = vs.take (taken .front (it.pulls es).1).length
  back : taken .back (it.pulls es).1 = vs.reverse.take (taken .back (it.pulls es).1).length
  apart : (taken .front (it.pulls es).1).length + (taken .back (it.pulls es).1).length ≤ vs.length
  remaining : (it.pulls es).2.remaining = vs.length - (taken .front (it.pulls es).1).length -
    (taken .back (it.pulls es).1).length
  isSome_iff : ∀ e, ((it.pulls es).2.pull e).1.isSome = true ↔ 0 < (it.pulls es).2.remaining
  /-- Once nothing is left, neither end gives anything again. -/
  exhausted : (it.pulls es).2.remaining = 0 → ∀ more,
    (it.pulls es).2.pulls more = (more.map (·, none), (it.pulls es).2)

variable {a : Arena α} {s : List (Handle × α)}

theorem Holds.iterates (ha : Holds a s) (es : List End) :
    Iterates a.iter (s.map (·.2)) es := by
  obtain ⟨x, m, y, rfl, hx, hy, hbetween⟩ := (Iter.between_iter ha).pulls es
  have hremaining : (a.iter.pulls es).2.remaining = m.length := hbetween.remaining
  refine ⟨?_, ?_, ?_, ?_, hbetween.pull_isSome_iff, fun hzero => ?_⟩
  · simp [hx]
  · simp [hy]
  · simp only [hx, hy, List.map_append, List.length_append, List.length_reverse]
    omega
  · simp only [hremaining, hx, hy, List.length_map, List.length_append, List.length_reverse]
    omega
  · obtain rfl := List.eq_nil_of_length_eq_zero (hremaining.symm.trans hzero)
    exact hbetween.pulls_nil

theorem Holds.collect_iter (ha : Holds a s) {n : Nat} (hn : a.size ≤ n) :
    a.iter.collect Iter.next n = s.map (·.2) ∧
      (a.iter.collect Iter.nextBack n).reverse = s.map (·.2) := by
  rw [ha.size] at hn
  constructor
  · rw [iter, ha.head, ha.size, Holds.collect_next (l := []) ha]
    exact List.take_of_length_le (by simpa using hn)
  · rw [(Iter.between_iter ha).collect_nextBack, List.take_of_length_le (by simpa using hn),
      List.reverse_reverse]

theorem Holds.value_at (ha : Holds a s) {i : Nat} (hi : i < s.length) :
    ∃ h, a.handleAt i = .ok h ∧ a.value? h = some s[i].2 := by
  obtain ⟨e, he, hv, -⟩ := ha.entry_getElem hi
  refine ⟨s[i].1, ?_, by rw [value?, he, Option.map_some, hv]⟩
  rw [ha.handleAt_eq, List.getElem?_eq_getElem (by simpa [handles] using hi)]
  simp [handles]

/-- Whatever was done with an arena, an iterator over it that is asked at its ends in any order
gives its values from the front in order, from the back in reverse, none of them twice, and all of
them before it gives nothing. So walks from either end and positions agree. -/
theorem iterates_from_both_ends (cs : List (Call α)) :
    ∃ s, Run [] cs (calls ∅ cs).1 s ∧
      (∀ es, Iterates (calls ∅ cs).2.iter (s.map (·.2)) es) ∧
      (∀ n, (calls ∅ cs).2.size ≤ n →
        (calls ∅ cs).2.iter.collect Iter.next n = s.map (·.2) ∧
          ((calls ∅ cs).2.iter.collect Iter.nextBack n).reverse = s.map (·.2)) ∧
      ∀ i (hi : i < s.length), ∃ h, (calls ∅ cs).2.handleAt i = .ok h ∧
        (calls ∅ cs).2.value? h = some s[i].2 := by
  obtain ⟨s, hrun, hs⟩ := Holds.empty.calls cs
  exact ⟨s, hrun, hs.iterates, fun _ hn => hs.collect_iter hn, fun _ hi => hs.value_at hi⟩

/-- Both ends meet behind a handle that was erased and its slot filled again. -/
example :
    let a := (calls ∅ [.push 1, .push 2, .erase ⟨0, 0⟩, .push 3, .insert none 4] : _ × Arena Nat).2
    (a.iter.pulls [.front, .back, .back, .front, .back]).1 =
      [(.front, some 4), (.back, some 3), (.back, some 2), (.front, none), (.back, none)] := by
  decide

end Asm6502.Arena
