import Asm6502.Proofs.Arena.Slots

/-!
# Links

A stretch of entries is a list of handles with their values (`Segment`): each entry leads on to the
next one and back to the one before, the ends to whatever lies outside. Stretches are joined and
cut like lists (`segment_append`), and depend on no entry but their own (`Segment.congr`).

Insertion and removal both end with the same two link updates, one on each side of the place that
changed. Neither can fail there, and together they leave the stretches on both sides led to the new
neighbours (`relink`).
-/

namespace Asm6502.Arena

variable {α : Type}

/-- The handles of some entries, each paired with its value. -/
def handles (s : List (Handle × α)) : List Handle := s.map (·.1)

@[simp] theorem handles_nil : handles ([] : List (Handle × α)) = [] := rfl

@[simp] theorem handles_cons (p : Handle × α) (s : List (Handle × α)) :
    handles (p :: s) = p.1 :: handles s := rfl

@[simp] theorem handles_append (l r : List (Handle × α)) :
    handles (l ++ r) = handles l ++ handles r := List.map_append

/-- The first of some entries, or what comes after them. -/
def front : List (Handle × α) → Option Handle → Option Handle
  | [], after => after
  | p :: _, _ => some p.1

/-- The last of some entries, or what comes before them. -/
def back (before : Option Handle) : List (Handle × α) → Option Handle
  | [] => before
  | p :: s => back (some p.1) s

theorem front_append (l r : List (Handle × α)) (after : Option Handle) :
    front (l ++ r) after = front l (front r after) := by
  cases l <;> rfl

theorem back_append (l r : List (Handle × α)) (before : Option Handle) :
    back before (l ++ r) = back (back before l) r := by
  induction l generalizing before with
  | nil => rfl
  | cons p l ih => exact ih (some p.1)

theorem front_eq_some {s : List (Handle × α)} {h : Handle} (hf : front s none = some h) :
    h ∈ handles s := by
  cases s with
  | nil => cases hf
  | cons p s =>
    obtain rfl := Option.some.inj hf
    exact List.mem_cons_self

theorem back_mem {s : List (Handle × α)} (before : Option Handle) (hs : s ≠ []) :
    ∃ h, back before s = some h ∧ h ∈ handles s := by
  induction s generalizing before with
  | nil => exact absurd rfl hs
  | cons p s ih =>
    cases s with
    | nil => exact ⟨p.1, rfl, List.mem_cons_self⟩
    | cons q s =>
      obtain ⟨h, hb, hm⟩ := ih (some p.1) (by simp)
      exact ⟨h, hb, List.mem_cons_of_mem _ hm⟩

theorem back_of_ne_nil {s : List (Handle × α)} {x y : Option Handle} (hs : s ≠ []) :
    back x s = back y s := by
  cases s with
  | nil => exact absurd rfl hs
  | cons p s => rfl

theorem back_eq_some {s : List (Handle × α)} {h : Handle} (hb : back none s = some h) :
    h ∈ handles s := by
  cases s with
  | nil => cases hb
  | cons p s =>
    obtain ⟨k, hk, hm⟩ := back_mem (s := p :: s) none (by simp)
    obtain rfl := Option.some.inj (hk.symm.trans hb)
    exact hm

/-- A stretch of entries, linked both ways between what comes before and what comes after. -/
def Segment (a : Arena α) : Option Handle → List (Handle × α) → Option Handle → Prop
  | _, [], _ => True
  | before, (h, v) :: s, after =>
    a.entry? h = some ⟨v, front s after, before⟩ ∧ Segment a (some h) s after

variable {a b : Arena α} {l r s : List (Handle × α)} {before after : Option Handle}

theorem segment_append :
    Segment a before (l ++ r) after ↔
      Segment a before l (front r after) ∧ Segment a (back before l) r after := by
  induction l generalizing before with
  | nil => simp [Segment, back]
  | cons p l ih => simp [Segment, ih, front_append, back, and_assoc]

theorem Segment.contains (hs : Segment a before s after) {h : Handle} (hm : h ∈ handles s) :
    a.contains h = true := by
  induction s generalizing before with
  | nil => cases hm
  | cons p s ih =>
    rcases List.mem_cons.1 hm with rfl | hm
    · simp [Arena.contains, hs.1]
    · exact ih hs.2 hm

/-- A stretch depends on its own entries only. -/
theorem Segment.congr (hs : Segment a before s after)
    (hab : ∀ h ∈ handles s, b.entry? h = a.entry? h) : Segment b before s after := by
  induction s generalizing before with
  | nil => trivial
  | cons p s ih =>
    refine ⟨(hab _ List.mem_cons_self).trans hs.1, ih hs.2 fun h hm => ?_⟩
    exact hab h (List.mem_cons_of_mem _ hm)

/-- Changing the successor of the last entry. -/
theorem Segment.relinkNext (hs : Segment a before s after) (hd : (handles s).Nodup)
    {t : Option Handle} (hab : ∀ h ∈ handles s, b.entry? h =
      if some h = back before s then (a.entry? h).map ({ · with next := t }) else a.entry? h) :
    Segment b before s t := by
  induction s generalizing before with
  | nil => trivial
  | cons p s ih =>
    rw [handles_cons, List.nodup_cons] at hd
    have hb := hab p.1 List.mem_cons_self
    rw [hs.1] at hb
    cases s with
    | nil => exact ⟨by simpa [back, front] using hb, trivial⟩
    | cons q s =>
      obtain ⟨k, hk, hm⟩ := back_mem (s := q :: s) (some p.1) (by simp)
      refine ⟨?_, ih hs.2 hd.2 fun h hm => hab h (List.mem_cons_of_mem _ hm)⟩
      rw [if_neg (fun h => hd.1 (by rw [Option.some.inj (h.trans hk)]; exact hm))] at hb
      exact hb

/-- Changing the predecessor of the first entry. -/
theorem Segment.relinkPrevious (hs : Segment a before s after) (hd : (handles s).Nodup)
    {t : Option Handle} (hab : ∀ h ∈ handles s, b.entry? h =
      if some h = front s after then (a.entry? h).map ({ · with previous := t })
      else a.entry? h) :
    Segment b t s after := by
  cases s with
  | nil => trivial
  | cons p s =>
    have hb := hab p.1 List.mem_cons_self
    rw [hs.1] at hb
    refine ⟨by simpa [front] using hb, hs.2.congr fun h hm => ?_⟩
    rw [hab h (List.mem_cons_of_mem _ hm), if_neg]
    intro hh
    obtain rfl : h = p.1 := Option.some.inj hh
    exact (List.nodup_cons.1 hd).1 hm

/-! ## Relinking -/

theorem setNext_ok {p t : Option Handle} (hp : ∀ h, p = some h → a.contains h = true) :
    a.setNext p t = (.ok (), (a.setNext p t).2) := by
  cases p with
  | none => rfl
  | some h => simp [setNext, modify, hp h rfl]

theorem setPrevious_ok {p t : Option Handle} (hp : ∀ h, p = some h → a.contains h = true) :
    a.setPrevious p t = (.ok (), (a.setPrevious p t).2) := by
  cases p with
  | none => rfl
  | some h => simp [setPrevious, modify, hp h rfl]

theorem contains_setNext (p t : Option Handle) (h : Handle) :
    contains (a.setNext p t).2 h = a.contains h := by
  simp only [contains, entry?_setNext]
  split <;> simp

theorem contains_setPrevious (p t : Option Handle) (h : Handle) :
    contains (a.setPrevious p t).2 h = a.contains h := by
  simp only [contains, entry?_setPrevious]
  split <;> simp

theorem ends_modify (f : Entry α → Entry α) (h : Handle) :
    (a.modify f h).2.head = a.head ∧ (a.modify f h).2.tail = a.tail ∧
      (a.modify f h).2.size = a.size := by
  unfold modify
  split
  · exact ⟨rfl, rfl, rfl⟩
  · exact ⟨rfl, rfl, rfl⟩

/-- `b` is `a` with the stretch `l` led on to `t` and the stretch `r` led back to `u`. -/
structure Relinked (a b : Arena α) (l r : List (Handle × α)) (t u : Option Handle) : Prop where
  left : Segment b none l t
  right : Segment b u r none
  frame : ∀ h, h ∉ handles (l ++ r) → b.entry? h = a.entry? h
  contains : ∀ h, b.contains h = a.contains h
  tidy : Tidy b
  head : b.head = if l = [] then t else a.head
  tail : b.tail = if r = [] then u else a.tail
  size : b.size = a.size

theorem head_setNext (t : Option Handle) :
    (a.setNext (back none l) t).2.head = (if l = [] then t else a.head) ∧
      (a.setNext (back none l) t).2.tail = a.tail ∧
      (a.setNext (back none l) t).2.size = a.size := by
  cases l with
  | nil => exact ⟨rfl, rfl, rfl⟩
  | cons p l =>
    obtain ⟨h, hb, -⟩ := back_mem (s := p :: l) none (by simp)
    rw [hb, if_neg (by simp)]
    exact ends_modify _ h

theorem tail_setPrevious (t : Option Handle) :
    (a.setPrevious (front r none) t).2.tail = (if r = [] then t else a.tail) ∧
      (a.setPrevious (front r none) t).2.head = a.head ∧
      (a.setPrevious (front r none) t).2.size = a.size := by
  cases r with
  | nil => exact ⟨rfl, rfl, rfl⟩
  | cons p r =>
    rw [if_neg (by simp)]
    obtain ⟨h1, h2, h3⟩ := ends_modify (a := a) ({ · with previous := t }) p.1
    exact ⟨h2, h1, h3⟩

/-- The two link updates of an insertion or removal never fail, and do what they are for. -/
theorem relink (ha : Tidy a) (hd : (handles (l ++ r)).Nodup) (hl : Segment a none l after)
    (hr : Segment a before r none) (t u : Option Handle) :
    ∃ b c, a.setNext (back none l) t = (.ok (), b) ∧
      b.setPrevious (front r none) u = (.ok (), c) ∧ Relinked a c l r t u := by
  rw [handles_append, List.nodup_append] at hd
  obtain ⟨hdl, hdr, hlr⟩ := hd
  refine ⟨(a.setNext (back none l) t).2, _, setNext_ok fun h hb => ?_,
    setPrevious_ok fun h hf => ?_, ?_⟩
  · exact hl.contains (back_eq_some hb)
  · rw [contains_setNext]
    exact hr.contains (front_eq_some hf)
  have hnext : ∀ h, some h = back none l → h ∈ handles l := fun h hb => back_eq_some hb.symm
  have hprev : ∀ h, some h = front r none → h ∈ handles r := fun h hf => front_eq_some hf.symm
  obtain ⟨hh1, ht1, hs1⟩ := head_setNext (a := a) (l := l) t
  obtain ⟨ht2, hh2, hs2⟩ := tail_setPrevious (a := (a.setNext (back none l) t).2) (r := r) u
  refine ⟨?_, ?_, fun h hm => ?_, fun h => ?_, (ha.setNext _ _).setPrevious _ _, ?_, ?_, ?_⟩
  · refine (hl.relinkNext hdl fun h _ => entry?_setNext _ _).congr fun h hm => ?_
    rw [entry?_setPrevious, if_neg fun hf => hlr h hm h (hprev h hf) rfl]
  · refine (hr.congr (b := (a.setNext (back none l) t).2) fun h hm => ?_).relinkPrevious hdr
      fun h _ => entry?_setPrevious _ _
    rw [entry?_setNext, if_neg fun hb => hlr h (hnext h hb) h hm rfl]
  · rw [handles_append, List.mem_append, not_or] at hm
    rw [entry?_setPrevious, if_neg fun hf => hm.2 (hprev h hf), entry?_setNext,
      if_neg fun hb => hm.1 (hnext h hb)]
  · rw [contains_setPrevious, contains_setNext]
  · rw [hh2, hh1]
  · rw [ht2, ht1]
  · rw [hs2, hs1]

end Asm6502.Arena
