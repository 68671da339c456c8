import Asm6502.Proofs.Arena.Sequence
import Mathlib.Data.List.Induction
import Mathlib.Data.List.Perm.Basic
import Mathlib.Order.Bounds.Basic

/-!
# Vacant slots

A slot holds an entry or is on the vacant list, and is there once (`Tidy`).

- So entries and vacancies together count the slots (`Holds.length_vacant`).
- The slot that is filled next is free, and filling it touches no entry (`Tidy.kept_by_allocate`).
- A slot is made only when all are full (`room_call`). So there are as many slots as there were
  entries at the fullest time of the history (`most_entries`).
-/

namespace Asm6502.Arena

variable {α : Type} {a : Arena α} {s : List (Handle × α)} {e : Entry α} {i : Nat}

/-! ## Counting slots -/

theorem nodup_occupied : a.occupied.Nodup := List.nodup_range.filter _

theorem Tidy.length_vacant (ha : Tidy a) : a.vacant.length + a.occupied.length = a.slots.size := by
  have hfree : a.vacant.Perm
      ((List.range a.slots.size).filter fun i => !(a.slots[i]?.bind (·.entry)).isSome) := by
    refine (List.perm_ext_iff_of_nodup ha.nodup (List.nodup_range.filter _)).2 fun i => ?_
    rw [ha.mem_vacant, List.mem_filter, List.mem_range]
    cases hs : a.slots[i]? with
    | none => simp [Array.getElem?_eq_none_iff.1 hs]
    | some slot =>
      obtain ⟨g, o⟩ := slot
      have hlt := (Array.getElem?_eq_some_iff.1 hs).1
      cases o <;> simp [hlt]
  have hall := List.length_eq_length_filter_add (l := List.range a.slots.size)
    fun i => (a.slots[i]?.bind (·.entry)).isSome
  rw [List.length_range, ← hfree.length_eq] at hall
  rw [occupied]
  omega

/-- Each entry of an arena has a slot of its own. -/
theorem Holds.length_occupied (ha : Holds a s) : a.occupied.length = s.length := by
  have hslot : ∀ {h : Handle}, h ∈ handles s →
      ∃ e, a.slots[h.slot]? = some ⟨h.generation, some e⟩ :=
    fun hm => (slot_of_contains (ha.segment.contains hm)).imp fun _ he => he.2
  have hnodup : ((handles s).map (·.slot)).Nodup := by
    refine List.Nodup.map_on (fun h hm k hk hsame => ?_) ha.nodup
    obtain ⟨e, he⟩ := hslot hm
    obtain ⟨x, hx⟩ := hslot hk
    rw [hsame, hx] at he
    obtain ⟨hgeneration, -⟩ := Slot.mk.inj (Option.some.inj he)
    cases h
    cases k
    simp_all
  have hperm : a.occupied.Perm ((handles s).map (·.slot)) := by
    refine (List.perm_ext_iff_of_nodup nodup_occupied hnodup).2 fun i => ?_
    rw [mem_occupied, List.mem_map]
    constructor
    · rintro ⟨g, e, hs⟩
      have hc : a.contains ⟨i, g⟩ = true := by
        rw [contains, entry?_eq_some (h := ⟨i, g⟩).2 hs]
        rfl
      exact ⟨⟨i, g⟩, ha.only _ hc, rfl⟩
    · rintro ⟨h, hm, rfl⟩
      obtain ⟨e, he⟩ := hslot hm
      exact ⟨h.generation, e, he⟩
  rw [hperm.length_eq, List.length_map, handles, List.length_map]

/-- Each slot is vacant or holds an entry. -/
theorem Holds.length_vacant (ha : Holds a s) : a.vacant.length + a.size = a.slots.size := by
  rw [ha.size, ← ha.length_occupied]
  exact ha.tidy.length_vacant

/-! ## Filling the next slot -/

theorem Tidy.next_free (ha : Tidy a) {rest : List Nat} (hv : a.vacant = i :: rest) :
    ∃ g, a.slots[i]? = some ⟨g, none⟩ :=
  (ha.mem_vacant i).1 (by simp [hv])

/-- Filling a slot keeps all entries where they are. -/
theorem Tidy.kept_by_allocate (ha : Tidy a) {g : UInt32} {x : Entry α}
    (hs : a.slots[i]? = some ⟨g, some x⟩) : (a.allocate e).2.slots[i]? = some ⟨g, some x⟩ := by
  obtain ⟨-, hold, hother⟩ := slots_allocate (e := e) ha
  have hi : i ≠ (a.allocate e).1.slot := by
    rintro rfl
    cases hold _ hs
  rw [hother i hi, hs]

/-! ## Making slots -/

/-- The number of slots and the vacant ones. -/
def room (a : Arena α) : Nat × List Nat := (a.slots.size, a.vacant)

theorem room_modify (f : Entry α → Entry α) (h : Handle) : room (a.modify f h).2 = a.room := by
  unfold modify
  split
  · simp [room]
  · rfl

theorem linkless_room : Linkless (room (α := α)) where
  setNext p t a := by
    cases p with
    | none => rfl
    | some p => exact room_modify _ p
  setPrevious p t a := by
    cases p with
    | none => rfl
    | some p => exact room_modify _ p
  size _ _ := rfl

/-- A call makes a slot only if none is vacant, and then fills it. -/
theorem room_call (a : Arena α) (c : Call α) :
    (a.call c).2.slots.size = a.slots.size ∨
      a.vacant = [] ∧ (a.call c).2.room = (a.slots.size + 1, []) := by
  have hinsert : ∀ after v, (a.insert after v).2.slots.size = a.slots.size ∨
      a.vacant = [] ∧ (a.insert after v).2.room = (a.slots.size + 1, []) := by
    intro after v
    rcases linkless_room.insert (a := a) after v with hsame | ⟨e, hfilled⟩
    · exact .inl (congrArg Prod.fst hsame)
    · cases hv : a.vacant with
      | nil => exact .inr ⟨rfl, hfilled.trans (by simp [room, allocate, hv])⟩
      | cons i rest => exact .inl ((congrArg Prod.fst hfilled).trans (by simp [room, allocate, hv]))
  cases c with
  | insert after v => exact hinsert after v
  | push v => exact hinsert a.tail v
  | erase h =>
    left
    rcases linkless_room.erase (a := a) h with hsame | ⟨e, -, hfreed⟩
    · exact congrArg Prod.fst hsame
    · exact (congrArg Prod.fst hfreed).trans (by simp [room, free])
  | replace h v => exact .inl (congrArg Prod.fst (room_modify _ h))
  | clear => exact .inl (by simp [call, Arena.clear])

theorem calls_concat (a : Arena α) (cs : List (Call α)) (c : Call α) :
    (a.calls (cs ++ [c])).2 = ((a.calls cs).2.call c).2 := by
  induction cs generalizing a with
  | nil => rfl
  | cons d cs ih => exact ih _

/-- There are as many slots as there were entries when there were most. -/
theorem most_entries (cs : List (Call α)) :
    IsGreatest {n | ∃ past, past <+: cs ∧ (calls ∅ past).2.size = n}
      (calls (∅ : Arena α) cs).2.slots.size := by
  induction cs using List.reverseRecOn with
  | nil =>
    refine ⟨⟨[], List.prefix_rfl, rfl⟩, ?_⟩
    rintro n ⟨past, hpast, rfl⟩
    rw [List.prefix_nil.1 hpast]
    exact Nat.le_refl 0
  | append_singleton cs c ih =>
    obtain ⟨⟨full, hfull, hsize⟩, hmost⟩ := ih
    obtain ⟨t, -, ht⟩ := Holds.empty.calls (cs ++ [c])
    have hcount := ht.length_vacant
    -- either the fullest time is the same as before, or it is now
    have hmade : (calls (∅ : Arena α) cs).2.slots.size ≤ (calls ∅ (cs ++ [c])).2.slots.size ∧
        ∃ past, past <+: cs ++ [c] ∧
          (calls (∅ : Arena α) past).2.size = (calls ∅ (cs ++ [c])).2.slots.size := by
      rcases room_call (calls ∅ cs).2 c with hsame | ⟨-, hroom⟩
      · rw [← calls_concat] at hsame
        exact ⟨hsame.ge, full, hfull.trans (List.prefix_append _ _), hsize.trans hsame.symm⟩
      · rw [← calls_concat, room, Prod.mk.injEq] at hroom
        obtain ⟨hslots, hvacant⟩ := hroom
        rw [hvacant, List.length_nil, Nat.zero_add] at hcount
        exact ⟨by omega, cs ++ [c], List.prefix_rfl, hcount⟩
    refine ⟨hmade.2, ?_⟩
    rintro n ⟨past, hpast, rfl⟩
    rcases List.prefix_concat_iff.1 hpast with rfl | hpast
    · omega
    · exact (hmost ⟨past, hpast, rfl⟩).trans hmade.1

/-- After any history of calls each slot without an entry is vacant once and nothing else is, so
that a slot that is filled next never holds an entry and no slot is lost; and no slot was made that
was not needed at some time. -/
theorem vacancies_exact (cs : List (Call α)) :
    let a : Arena α := (calls ∅ cs).2
    a.vacant.Nodup ∧ (∀ i : Nat, i ∈ a.vacant ↔ ∃ g, a.slots[i]? = some ⟨g, none⟩) ∧
      a.vacant.length + a.size = a.slots.size ∧
      (∀ (i : Nat) rest, a.vacant = i :: rest → ∃ g, a.slots[i]? = some ⟨g, none⟩) ∧
      (∀ e (i : Nat) g x, a.slots[i]? = some ⟨g, some x⟩ →
        (a.allocate e).2.slots[i]? = some ⟨g, some x⟩) ∧
      IsGreatest {n | ∃ past, past <+: cs ∧ (calls ∅ past).2.size = n} a.slots.size := by
  intro a
  obtain ⟨s, -, hs⟩ := Holds.empty.calls cs
  exact ⟨hs.tidy.nodup, hs.tidy.mem_vacant, hs.length_vacant, fun _ _ => hs.tidy.next_free,
    fun _ _ _ _ => hs.tidy.kept_by_allocate, most_entries cs⟩

end Asm6502.Arena
