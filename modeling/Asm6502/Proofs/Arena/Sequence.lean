import Asm6502.Proofs.Arena.Contents

/-!
# Arenas are sequences

`Step` says what each call does to a plain sequence of handles and values, and what it answers;
nothing in it speaks of slots, links or generations. `Shows` says what can be seen of an arena
that stands for a sequence. Every history of calls on an empty arena is a run of the sequence: the
answers are those of the run, the arena shows its last state, and a call with a handle that the
sequence does not have changes nothing at all.
-/

namespace Asm6502.Arena

variable {α : Type}

/-! ## Calls -/

/-- The calls that change an arena. A value that is changed in place is replaced. -/
inductive Call (α : Type) where
  | insert (after : Option Handle) (v : α)
  | push (v : α)
  | erase (h : Handle)
  | replace (h : Handle) (v : α)
  | clear

/-- What a call answers. -/
inductive Answer (α : Type) where
  | handle (r : Except Error Handle)
  | value (r : Except Error α)
  | old (v : Option α)
  | done

def call (a : Arena α) : Call α → Answer α × Arena α
  | .insert after v => (.handle (a.insert after v).1, (a.insert after v).2)
  | .push v => (.handle (a.push v).1, (a.push v).2)
  | .erase h => (.value (a.erase h).1, (a.erase h).2)
  | .replace h v => (.old (a.replace h v).1, (a.replace h v).2)
  | .clear => (.done, a.clear)

/-- The answers of calls one after another, and the arena that they leave. -/
def calls (a : Arena α) : List (Call α) → List (Answer α) × Arena α
  | [] => ([], a)
  | c :: cs => ((a.call c).1 :: (calls (a.call c).2 cs).1, (calls (a.call c).2 cs).2)

/-- A call with a handle that the sequence does not have. -/
def Call.Stale (s : List (Handle × α)) : Call α → Prop
  | .insert (some h) _ | .erase h | .replace h _ => h ∉ handles s
  | .insert none _ | .push _ | .clear => False

/-! ## Sequences -/

/-- What a call does to a sequence. An insertion chooses a handle that it does not have. -/
inductive Step : List (Handle × α) → Call α → Answer α → List (Handle × α) → Prop where
  | prepend {s h v} : h ∉ handles s → Step s (.insert none v) (.handle (.ok h)) ((h, v) :: s)
  | insertAfter {l r h v k w} : k ∉ handles (l ++ (h, v) :: r) →
      Step (l ++ (h, v) :: r) (.insert (some h) w) (.handle (.ok k)) (l ++ (h, v) :: (k, w) :: r)
  | append {s h v} : h ∉ handles s → Step s (.push v) (.handle (.ok h)) (s ++ [(h, v)])
  | erase {l r h v} : Step (l ++ (h, v) :: r) (.erase h) (.value (.ok v)) (l ++ r)
  | replace {l r h v w} :
      Step (l ++ (h, v) :: r) (.replace h w) (.old (some v)) (l ++ (h, w) :: r)
  | clear {s} : Step s .clear .done []
  | insertStale {s h v} : h ∉ handles s →
      Step s (.insert (some h) v) (.handle (.error (.ofCause (.invalidEntry h.slot)))) s
  | eraseEmpty {h} : Step [] (.erase h) (.value (.error (.ofCause .emptyList))) []
  | eraseStale {s h} : s ≠ [] → h ∉ handles s →
      Step s (.erase h) (.value (.error (.ofCause (.invalidEntry h.slot)))) s
  | replaceStale {s h v} : h ∉ handles s → Step s (.replace h v) (.old none) s

/-- Calls on a sequence one after another. -/
inductive Run : List (Handle × α) → List (Call α) → List (Answer α) → List (Handle × α) → Prop where
  | nil {s} : Run s [] [] s
  | cons {s t u c cs x xs} : Step s c x t → Run t cs xs u → Run s (c :: cs) (x :: xs) u

/-- At most `n` handles, from `h` on along `step`. -/
def follow (step : Handle → Option Handle) : Nat → Option Handle → List Handle
  | 0, _ => []
  | _ + 1, none => []
  | n + 1, some h => h :: follow step n (step h)

/-- What can be seen of an arena that stands for a sequence. -/
structure Shows (a : Arena α) (s : List (Handle × α)) : Prop where
  distinct : (handles s).Nodup
  size : a.size = s.length
  head_none : a.head = none ↔ s = []
  tail_none : a.tail = none ↔ s = []
  /-- However long one follows the links, they visit the sequence and end. -/
  forward : ∀ n, follow a.next? n a.head = (handles s).take n
  backward : ∀ n, follow a.previous? n a.tail = (handles s).reverse.take n
  before_head : a.head.bind a.previous? = none
  after_tail : a.tail.bind a.next? = none
  handleAt : ∀ i, a.handleAt i = match (handles s)[i]? with
    | some h => .ok h
    | none => .error (.ofCause (.indexOutOfRange i))
  contains : ∀ h, a.contains h = true ↔ h ∈ handles s
  value : ∀ h v, a.value? h = some v ↔ (h, v) ∈ s

/-! ## Refinement -/

variable {a : Arena α} {l r s : List (Handle × α)}

theorem Holds.follow_next (ha : Holds a (l ++ r)) (n : Nat) :
    follow a.next? n (front r none) = (handles r).take n := by
  induction n generalizing l r with
  | zero => simp [follow]
  | succ n ih =>
    cases r with
    | nil => simp [follow, front]
    | cons p r =>
      have hnext : a.next? p.1 = front r none := ha.next?_eq
      rw [List.append_cons] at ha
      show p.1 :: follow a.next? n (a.next? p.1) = _
      rw [hnext, ih ha]
      rfl

theorem Holds.follow_previous (ha : Holds a (l ++ r)) (n : Nat) :
    follow a.previous? n (back none l) = (handles l).reverse.take n := by
  induction n generalizing l r with
  | zero => simp [follow]
  | succ n ih =>
    rcases List.eq_nil_or_concat l with rfl | ⟨l, p, rfl⟩
    · simp [follow, back]
    · rw [List.concat_eq_append] at ha ⊢
      rw [← List.append_cons] at ha
      have hprevious : a.previous? p.1 = back none l := ha.previous?_eq
      simp [back_append, back, follow, hprevious, ih ha]

theorem Holds.value?_eq (ha : Holds a s) {h : Handle} {v : α} :
    a.value? h = some v ↔ (h, v) ∈ s := by
  constructor
  · intro hv
    have hm : h ∈ handles s := by
      by_contra hm
      simp [value?, ha.entry_eq_none hm] at hv
    obtain ⟨l, w, r, rfl⟩ := split_of_mem hm
    rw [value?, ha.entry_eq] at hv
    obtain rfl := Option.some.inj hv
    simp
  · intro hm
    obtain ⟨l, r, rfl⟩ := List.append_of_mem hm
    simp [value?, ha.entry_eq]

theorem Holds.shows (ha : Holds a s) : Shows a s where
  distinct := ha.nodup
  size := ha.size
  head_none := by
    rw [ha.head]
    cases s <;> simp [front]
  tail_none := by
    rw [ha.tail]
    constructor
    · intro hb
      by_contra hs
      obtain ⟨h, hh, -⟩ := back_mem none hs
      simp [hh] at hb
    · rintro rfl
      rfl
  forward n := by
    rw [ha.head]
    exact Holds.follow_next (l := []) ha n
  backward n := by
    rw [ha.tail]
    exact Holds.follow_previous (r := []) (by simpa using ha) n
  before_head := by
    rw [ha.head]
    cases s with
    | nil => rfl
    | cons p s => exact Holds.previous?_eq (l := []) ha
  after_tail := by
    rw [ha.tail]
    rcases List.eq_nil_or_concat s with rfl | ⟨l, p, rfl⟩
    · rfl
    · rw [List.concat_eq_append] at ha ⊢
      rw [back_append]
      exact ha.next?_eq
  handleAt := ha.handleAt_eq
  contains _ := ha.contains_iff
  value _ _ := ha.value?_eq

/-- A call with a stale handle is refused and leaves the arena as it was. -/
theorem Holds.stale_call (ha : Holds a s) {c : Call α} (hc : c.Stale s) :
    Step s c (a.call c).1 s ∧ (a.call c).2 = a := by
  cases c with
  | insert after v =>
    cases after with
    | none => exact hc.elim
    | some h =>
      rw [call, ha.insert_stale hc]
      exact ⟨.insertStale hc, rfl⟩
  | push v => exact hc.elim
  | erase h =>
    rw [call, ha.erase_stale hc]
    refine ⟨?_, rfl⟩
    by_cases hs : s = []
    · subst hs
      exact .eraseEmpty
    · rw [if_neg hs]
      exact .eraseStale hs hc
  | replace h v =>
    rw [call, ha.replace_stale hc]
    exact ⟨.replaceStale hc, rfl⟩
  | clear => exact hc.elim

/-- A call with a handle of the sequence, or with none, has its effect. -/
theorem Holds.fresh_call (ha : Holds a s) {c : Call α} (hc : ¬ c.Stale s) :
    ∃ t, Step s c (a.call c).1 t ∧ Holds (a.call c).2 t := by
  cases c with
  | insert after v =>
    cases after with
    | none =>
      obtain ⟨h, b, hb, hfresh, hh⟩ := ha.insert_front v
      rw [call, hb]
      exact ⟨_, .prepend hfresh, hh⟩
    | some h =>
      obtain ⟨l, w, r, rfl⟩ := split_of_mem (not_not.1 hc)
      obtain ⟨k, b, hb, hfresh, hh⟩ := ha.insert_after v
      rw [call, hb]
      exact ⟨_, .insertAfter hfresh, hh⟩
  | push v =>
    obtain ⟨h, b, hb, hfresh, hh⟩ := ha.push v
    rw [call, hb]
    exact ⟨_, .append hfresh, hh⟩
  | erase h =>
    obtain ⟨l, v, r, rfl⟩ := split_of_mem (not_not.1 hc)
    obtain ⟨b, hb, hh⟩ := ha.erase
    rw [call, hb]
    exact ⟨_, .erase, hh⟩
  | replace h w =>
    obtain ⟨l, v, r, rfl⟩ := split_of_mem (not_not.1 hc)
    obtain ⟨hold, hh⟩ := ha.replace w
    rw [call, hold]
    exact ⟨_, .replace, hh⟩
  | clear => exact ⟨[], .clear, ha.clear⟩

/-- One call on an arena that holds a sequence is one step of the sequence. -/
theorem Holds.call (ha : Holds a s) (c : Call α) :
    ∃ t, Step s c (a.call c).1 t ∧ Holds (a.call c).2 t ∧ (c.Stale s → (a.call c).2 = a) := by
  by_cases hc : c.Stale s
  · obtain ⟨hstep, hsame⟩ := ha.stale_call hc
    exact ⟨s, hstep, hsame.symm ▸ ha, fun _ => hsame⟩
  · obtain ⟨t, hstep, hh⟩ := ha.fresh_call hc
    exact ⟨t, hstep, hh, fun h => absurd h hc⟩

theorem Holds.calls (ha : Holds a s) (cs : List (Call α)) :
    ∃ t, Run s cs (a.calls cs).1 t ∧ Holds (a.calls cs).2 t := by
  induction cs generalizing a s with
  | nil => exact ⟨s, .nil, ha⟩
  | cons c cs ih =>
    obtain ⟨t, hstep, hh, -⟩ := ha.call c
    obtain ⟨u, hrun, hu⟩ := ih hh
    exact ⟨u, .cons hstep hrun, hu⟩

/-- Every history of calls on an empty arena is a run of a plain sequence from nothing. The arena
shows the sequence that the run leads to, answers each further call as the sequence does, and is
left exactly as it was by a call with a stale handle. -/
theorem calls_refine_sequence (cs : List (Call α)) :
    ∃ s, Run [] cs (calls ∅ cs).1 s ∧ Shows (calls ∅ cs).2 s ∧
      ∀ c, ∃ t, Step s c ((calls ∅ cs).2.call c).1 t ∧ Shows ((calls ∅ cs).2.call c).2 t ∧
        (c.Stale s → ((calls ∅ cs).2.call c).2 = (calls ∅ cs).2) := by
  obtain ⟨s, hrun, hs⟩ := Holds.empty.calls cs
  refine ⟨s, hrun, hs.shows, fun c => ?_⟩
  obtain ⟨t, hstep, ht, hstale⟩ := hs.call c
  exact ⟨t, hstep, ht.shows, hstale⟩

end Asm6502.Arena
