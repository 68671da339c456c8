import Asm6502.Arena
import Mathlib.Data.List.Nodup

/-!
# Slots

What an arena holds is seen through `entry?`. Each operation on slots changes the entry of one
handle and keeps those of all others, whatever generations the slots have reached:

- `modify`, `setNext`, `setPrevious` rewrite an entry in place (`entry?_modify`);
- `free` takes one away (`entry?_free`), `clear` all of them (`entry?_clear`);
- `allocate` adds one under a handle that had none (`entry?_allocate`).

The vacant list names each free slot once and no other slot (`Tidy`), and stays so. What shows no
links sees an insertion as `allocate` and a removal as `free` (`Linkless`).
-/

namespace Asm6502.Arena

variable {α : Type} {a b : Arena α} {h k : Handle} {e : Entry α}

/-! ## Entries and slots -/

theorem entry?_of_slot {g : UInt32} {o : Option (Entry α)} (hs : a.slots[h.slot]? = some ⟨g, o⟩) :
    a.entry? h = if g = h.generation then o else none := by
  unfold entry?
  rw [hs]
  by_cases hg : g = h.generation
  · simp [Option.filter, hg]
  · simp [Option.filter, hg]

theorem entry?_of_no_slot (hs : a.slots[h.slot]? = none) : a.entry? h = none := by
  simp [hs, entry?]

theorem entry?_eq_some :
    a.entry? h = some e ↔ a.slots[h.slot]? = some ⟨h.generation, some e⟩ := by
  cases hs : a.slots[h.slot]? with
  | none => simp [entry?_of_no_slot hs]
  | some s =>
    obtain ⟨g, o⟩ := s
    rw [entry?_of_slot hs]
    by_cases hg : g = h.generation
    · simp [hg]
    · simp [hg]

/-- If only the slot of `h` changes, no other handle sees it: the slot had the generation of `h`
or was not there, and now has it too or is free. -/
theorem entry?_of_one_slot {g : UInt32} {o : Option (Entry α)}
    (ha : ∀ s, a.slots[h.slot]? = some s → s.generation = h.generation)
    (hb : b.slots[h.slot]? = some ⟨g, o⟩) (hg : g = h.generation ∨ o = none)
    (hother : ∀ i, i ≠ h.slot → b.slots[i]? = a.slots[i]?) :
    b.entry? k = if k = h then o else a.entry? k := by
  by_cases hslot : k.slot = h.slot
  · rw [← hslot] at ha hb
    rw [entry?_of_slot hb]
    by_cases hk : k = h
    · subst hk
      rcases hg with hg | ho
      · simp [hg]
      · simp [ho]
    · have hne : h.generation ≠ k.generation := fun hg => hk (by cases h; cases k; simp_all)
      have hak : a.entry? k = none := by
        cases hs : a.slots[k.slot]? with
        | none => exact entry?_of_no_slot hs
        | some s => rw [entry?_of_slot hs, if_neg (by rw [ha s hs]; exact hne)]
      rw [if_neg hk, hak]
      rcases hg with hg | ho
      · rw [hg, if_neg hne]
      · rw [ho, ite_self]
  · rw [if_neg fun hk => hslot (by rw [hk])]
    simp [hother k.slot hslot, entry?]

theorem slot_of_contains (hc : a.contains h = true) :
    ∃ e, a.entry? h = some e ∧ a.slots[h.slot]? = some ⟨h.generation, some e⟩ := by
  obtain ⟨e, he⟩ := Option.isSome_iff_exists.1 hc
  exact ⟨e, he, entry?_eq_some.1 he⟩

/-- Changing an entry changes it alone. -/
theorem entry?_modify (f : Entry α → Entry α) :
    entry? (a.modify f h).2 k = if k = h then (a.entry? k).map f else a.entry? k := by
  unfold modify
  split
  · rename_i hc
    obtain ⟨e, he, hs⟩ := slot_of_contains hc
    rw [entry?_of_one_slot (a := a) (h := h) (g := h.generation) (o := some (f e))
      (fun s hs' => by rw [hs] at hs'; cases hs'; rfl)
      (by simp [Array.getElem?_modify, hs]) (.inl rfl)
      (fun i hi => by simp [Array.getElem?_modify, Ne.symm hi])]
    by_cases hk : k = h
    · simp [hk, he]
    · simp [hk]
  · rename_i hc
    have hn : a.entry? h = none := by simpa [contains] using hc
    by_cases hk : k = h
    · simp [hk, hn]
    · simp [hk]

theorem entry?_setNext (p t : Option Handle) :
    entry? (a.setNext p t).2 k =
      if some k = p then (a.entry? k).map ({ · with next := t }) else a.entry? k := by
  cases p with
  | none => simp [setNext, entry?]
  | some p => simp [setNext, entry?_modify]

theorem entry?_setPrevious (p t : Option Handle) :
    entry? (a.setPrevious p t).2 k =
      if some k = p then (a.entry? k).map ({ · with previous := t }) else a.entry? k := by
  cases p with
  | none => simp [setPrevious, entry?]
  | some p => simp [setPrevious, entry?_modify]

/-- Freeing the slot of an entry takes away that entry alone. -/
theorem entry?_free (he : a.entry? h = some e) :
    entry? (a.free h.slot) k = if k = h then none else a.entry? k := by
  have hs := entry?_eq_some.1 he
  exact entry?_of_one_slot (g := h.generation + 1)
    (fun s hs' => by rw [hs] at hs'; cases hs'; rfl)
    (by simp [free, Array.getElem?_modify, hs, Slot.freed]) (.inr rfl)
    (fun i hi => by simp [free, Array.getElem?_modify, Ne.symm hi])

theorem entry?_clear : a.clear.entry? k = none := by
  cases hs : a.slots[k.slot]? with
  | none => exact entry?_of_no_slot (by simp [clear, hs])
  | some s =>
    have hf : a.clear.slots[k.slot]? = some ⟨s.freed.generation, none⟩ := by
      cases s with
      | mk g o => cases o <;> simp [clear, hs, Slot.freed]
    rw [entry?_of_slot hf, ite_self]

/-! ## Vacant slots -/

/-- The vacant list names each free slot once and no other slot. -/
structure Tidy (a : Arena α) : Prop where
  nodup : a.vacant.Nodup
  mem_vacant : ∀ i, i ∈ a.vacant ↔ ∃ g, a.slots[i]? = some ⟨g, none⟩

theorem Tidy.empty : Tidy (∅ : Arena α) :=
  ⟨List.nodup_nil, fun i => by simp [EmptyCollection.emptyCollection]⟩

/-- An operation that frees and fills no slot keeps the vacant list right. -/
theorem Tidy.of_same_slots (ha : Tidy a) (hv : b.vacant = a.vacant)
    (hs : ∀ (i : Nat) (g : UInt32), b.slots[i]? = some ⟨g, none⟩ ↔ a.slots[i]? = some ⟨g, none⟩) :
    Tidy b :=
  ⟨hv ▸ ha.nodup, fun i => by simp only [hv, hs, ha.mem_vacant]⟩

theorem Tidy.modify (ha : Tidy a) (f : Entry α → Entry α) : Tidy (a.modify f h).2 := by
  unfold Arena.modify
  split
  · refine ha.of_same_slots rfl fun i g => ?_
    simp only [Array.getElem?_modify]
    split
    · cases a.slots[i]? with
      | none => simp
      | some s => cases s; simp
    · rfl
  · exact ha

theorem Tidy.setNext (ha : Tidy a) (p t : Option Handle) : Tidy (a.setNext p t).2 := by
  cases p with
  | none => exact ha.of_same_slots rfl fun _ _ => Iff.rfl
  | some p => exact ha.modify _

theorem Tidy.setPrevious (ha : Tidy a) (p t : Option Handle) : Tidy (a.setPrevious p t).2 := by
  cases p with
  | none => exact ha.of_same_slots rfl fun _ _ => Iff.rfl
  | some p => exact ha.modify _

theorem Tidy.free (ha : Tidy a) (he : a.entry? h = some e) : Tidy (a.free h.slot) := by
  have hs := entry?_eq_some.1 he
  have hfresh : h.slot ∉ a.vacant := by
    intro hm
    obtain ⟨g, hg⟩ := (ha.mem_vacant _).1 hm
    simp [hs] at hg
  refine ⟨List.nodup_cons.2 ⟨hfresh, ha.nodup⟩, fun i => ?_⟩
  by_cases hi : i = h.slot
  · subst hi
    simp [Arena.free, Array.getElem?_modify, hs, Slot.freed]
  · simp [Arena.free, Array.getElem?_modify, Ne.symm hi, hi, ha.mem_vacant]

theorem mem_occupied {i : Nat} : i ∈ a.occupied ↔ ∃ g e, a.slots[i]? = some ⟨g, some e⟩ := by
  unfold occupied
  rw [List.mem_filter, List.mem_range]
  cases hs : a.slots[i]? with
  | none => simp
  | some s =>
    obtain ⟨g, o⟩ := s
    have hlt := (Array.getElem?_eq_some_iff.1 hs).1
    cases o <;> simp [hlt]

theorem Tidy.clear (ha : Tidy a) : Tidy a.clear := by
  constructor
  · refine List.nodup_append.2 ⟨?_, ha.nodup, ?_⟩
    · exact List.nodup_reverse.2 (List.nodup_range.filter _)
    · intro i hi j hj hij
      subst hij
      obtain ⟨g, e, hs⟩ := mem_occupied.1 (List.mem_reverse.1 hi)
      obtain ⟨g', hs'⟩ := (ha.mem_vacant i).1 hj
      simp [hs] at hs'
  · intro i
    simp only [Arena.clear, List.mem_append, List.mem_reverse, mem_occupied, ha.mem_vacant,
      Array.getElem?_map]
    cases a.slots[i]? with
    | none => simp
    | some s =>
      obtain ⟨g, o⟩ := s
      cases o <;> simp [Slot.freed]

/-! ## Filling a slot -/

/-- What filling a slot does to the slots: the one of the new handle is filled with its generation,
which it had before unless it is new, and the others stay. -/
theorem slots_allocate (ha : Tidy a) :
    (a.allocate e).2.slots[(a.allocate e).1.slot]? = some ⟨(a.allocate e).1.generation, some e⟩ ∧
      (∀ s, a.slots[(a.allocate e).1.slot]? = some s →
        s = ⟨(a.allocate e).1.generation, none⟩) ∧
      ∀ i, i ≠ (a.allocate e).1.slot → (a.allocate e).2.slots[i]? = a.slots[i]? := by
  unfold allocate
  split
  · refine ⟨by simp, fun s hs => by simp at hs, fun i hi => ?_⟩
    simp [Array.getElem?_push, hi]
  · rename_i i vacant hv
    obtain ⟨g, hs⟩ := (ha.mem_vacant i).1 (by simp [hv])
    have hlt := (Array.getElem?_eq_some_iff.1 hs).1
    refine ⟨by simp [hlt], fun s hs' => ?_, fun j hj => ?_⟩
    · obtain rfl := Option.some.inj (hs.symm.trans hs')
      simp [hs]
    · simp [Ne.symm hj]

/-- Filling a slot adds one entry. -/
theorem entry?_allocate (ha : Tidy a) :
    entry? (a.allocate e).2 k = if k = (a.allocate e).1 then some e else a.entry? k := by
  obtain ⟨hnew, hold, hother⟩ := slots_allocate (e := e) ha
  exact entry?_of_one_slot (fun s hs => by rw [hold s hs]) hnew (.inl rfl) hother

theorem entry?_allocate_fst (ha : Tidy a) : a.entry? (a.allocate e).1 = none := by
  obtain ⟨-, hold, -⟩ := slots_allocate (e := e) ha
  cases hs : a.slots[(a.allocate e).1.slot]? with
  | none => exact entry?_of_no_slot hs
  | some s =>
    rw [hold s hs] at hs
    rw [entry?_of_slot hs, ite_self]

theorem Tidy.allocate (ha : Tidy a) : Tidy (a.allocate e).2 := by
  have hn := ha.nodup
  have hm := ha.mem_vacant
  unfold Arena.allocate
  split
  · rename_i hv
    refine ⟨hn, fun i => ?_⟩
    have := hm i
    simp only [Array.getElem?_push]
    split
    · rename_i hi
      subst hi
      simpa using this
    · exact this
  · rename_i i vacant hv
    rw [hv] at hn hm
    obtain ⟨hi, hn⟩ := List.nodup_cons.1 hn
    refine ⟨hn, fun j => ?_⟩
    by_cases hj : j = i
    · subst hj
      have hlt : j < a.slots.size := by
        obtain ⟨g, hs⟩ := (hm j).1 (by simp)
        exact (Array.getElem?_eq_some_iff.1 hs).1
      simp [hi, hlt]
    · rw [← (by simp [hj] : j ∈ i :: vacant ↔ j ∈ vacant), hm j]
      simp [Ne.symm hj]

/-! ## Views without links -/

/-- A view of an arena that shows nothing of its links and of its size. -/
structure Linkless {β : Type} (view : Arena α → β) : Prop where
  setNext : ∀ p t a, view (setNext p t a).2 = view a
  setPrevious : ∀ p t a, view (setPrevious p t a).2 = view a
  size : ∀ n a, view { a with size := n } = view a

namespace Linkless

variable {β : Type} {view : Arena α → β}

theorem insertBetween (hview : Linkless view) (p n : Option Handle) (v : α) :
    view (a.insertBetween p n v).2 = view (a.allocate ⟨v, n, p⟩).2 := by
  unfold Arena.insertBetween
  have hnext := hview.setNext p (some (a.allocate ⟨v, n, p⟩).1) (a.allocate ⟨v, n, p⟩).2
  dsimp only
  split
  · rename_i e b hb
    rwa [hb] at hnext
  · rename_i b hb
    rw [hb] at hnext
    have hprevious := hview.setPrevious n (some (a.allocate ⟨v, n, p⟩).1) b
    split
    · rename_i e c hc
      rw [hc] at hprevious
      exact hprevious.trans hnext
    · rename_i c hc
      rw [hc] at hprevious
      rw [hview.size]
      exact hprevious.trans hnext

/-- An insertion is seen as the filling of a slot, if it is seen. -/
theorem insert (hview : Linkless view) (after : Option Handle) (v : α) :
    view (a.insert after v).2 = view a ∨
      ∃ e, view (a.insert after v).2 = view (a.allocate e).2 := by
  unfold Arena.insert
  split
  · exact .inr ⟨_, hview.insertBetween _ _ _⟩
  · split
    · exact .inl rfl
    · exact .inr ⟨_, hview.insertBetween _ _ _⟩

/-- A removal is seen as the freeing of a slot, if it is seen. -/
theorem erase (hview : Linkless view) (h : Handle) :
    view (a.erase h).2 = view a ∨
      ∃ e, a.entry? h = some e ∧ view (a.erase h).2 = view (a.free h.slot) := by
  unfold Arena.erase
  split
  · exact .inl rfl
  split
  · exact .inl rfl
  rename_i e he
  refine .inr ⟨e, he, ?_⟩
  have hnext := hview.setNext e.previous e.next (a.free h.slot)
  split
  · rename_i b hb
    rwa [hb] at hnext
  · rename_i b hb
    rw [hb] at hnext
    have hprevious := hview.setPrevious e.next e.previous b
    split
    · rename_i c hc
      rw [hc] at hprevious
      exact hprevious.trans hnext
    · rename_i c hc
      rw [hc] at hprevious
      rw [hview.size]
      exact hprevious.trans hnext

end Linkless

end Asm6502.Arena
