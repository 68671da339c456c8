import Asm6502.Proofs.Arena.Sequence

/-!
# How long handles stay stale

A slot is filled, emptied, and filled again; each time that it is emptied its generation goes up by
one, and nothing else changes it (`Turn`, `Holds.turn_call`). So the generation of a slot counts how
often it was emptied, as far as 32 bits can count (`Holds.stage_calls`).

- The handle of an entry that was removed is rejected, and no insertion answers it, until its slot
  has been emptied `2 ^ 32` times (`rejected_until_wrap`).
- Then the count starts again, and so does the handle (`returns_after_wrap`).
-/

namespace Asm6502.Arena

variable {α : Type} {a b : Arena α} {s : List (Handle × α)} {h : Handle} {e : Entry α} {i : Nat}

/-! ## Stages of slots -/

/-- The generation of a slot and whether it holds an entry. -/
def stage (a : Arena α) (i : Nat) : Option (UInt32 × Bool) :=
  a.slots[i]?.map fun s => (s.generation, s.entry.isSome)

/-- What a call can do to a slot. -/
inductive Turn : Option (UInt32 × Bool) → Option (UInt32 × Bool) → Prop where
  | keep {o} : Turn o o
  | made {g} : Turn none (some (g, true))
  | filled {g} : Turn (some (g, false)) (some (g, true))
  | emptied {g} : Turn (some (g, true)) (some (g + 1, false))

/-- A slot that is full keeps its generation in becoming or staying so. -/
theorem Turn.generation_eq {g g' : UInt32} {full : Bool}
    (h : Turn (some (g, full)) (some (g', true))) : g' = g := by
  cases h <;> rfl

theorem contains_iff_stage :
    a.contains h = true ↔ a.stage h.slot = some (h.generation, true) := by
  unfold contains stage
  cases hs : a.slots[h.slot]? with
  | none => simp [entry?_of_no_slot hs]
  | some s =>
    obtain ⟨g, o⟩ := s
    rw [entry?_of_slot hs]
    by_cases hg : g = h.generation
    · simp [hg]
    · simp [hg]

theorem stage_modify (f : Entry α → Entry α) : stage (a.modify f h).2 i = a.stage i := by
  unfold modify
  split
  · simp only [stage, Array.getElem?_modify]
    split
    · cases a.slots[i]? <;> simp
    · rfl
  · rfl

theorem stage_setNext (p t : Option Handle) : stage (a.setNext p t).2 i = a.stage i := by
  cases p with
  | none => rfl
  | some p => exact stage_modify _

theorem stage_setPrevious (p t : Option Handle) : stage (a.setPrevious p t).2 i = a.stage i := by
  cases p with
  | none => rfl
  | some p => exact stage_modify _

theorem turn_allocate (ha : Tidy a) : Turn (a.stage i) ((a.allocate e).2.stage i) := by
  obtain ⟨hnew, hold, hother⟩ := slots_allocate (e := e) ha
  by_cases hi : i = (a.allocate e).1.slot
  · subst hi
    have hstage : (a.allocate e).2.stage (a.allocate e).1.slot =
        some ((a.allocate e).1.generation, true) := by simp [stage, hnew]
    rw [hstage]
    cases hs : a.slots[(a.allocate e).1.slot]? with
    | none => simpa [stage, hs] using Turn.made
    | some s => simpa [stage, hs, hold s hs] using Turn.filled
  · rw [stage, stage, hother i hi]
    exact .keep

theorem turn_free (he : a.entry? h = some e) : Turn (a.stage i) ((a.free h.slot).stage i) := by
  have hs := entry?_eq_some.1 he
  by_cases hi : h.slot = i
  · subst hi
    have hfree : (a.free h.slot).stage h.slot = some (h.generation + 1, false) := by
      simp [stage, free, Array.getElem?_modify, hs, Slot.freed]
    rw [hfree]
    simpa [stage, hs] using Turn.emptied
  · have hfree : (a.free h.slot).stage i = a.stage i := by
      simp [stage, free, Array.getElem?_modify, hi]
    rw [hfree]
    exact .keep

theorem turn_clear : Turn (a.stage i) (a.clear.stage i) := by
  cases hs : a.slots[i]? with
  | none => simpa [stage, clear, hs] using Turn.keep
  | some s =>
    obtain ⟨g, o⟩ := s
    cases o with
    | none => simpa [stage, clear, hs, Slot.freed] using Turn.keep
    | some e => simpa [stage, clear, hs, Slot.freed] using Turn.emptied

theorem linkless_stage (i : Nat) : Linkless (fun a : Arena α => a.stage i) :=
  ⟨fun p t _ => stage_setNext p t, fun p t _ => stage_setPrevious p t, fun _ _ => rfl⟩

theorem turn_insert (ha : Tidy a) (after : Option Handle) (v : α) :
    Turn (a.stage i) (stage (a.insert after v).2 i) := by
  rcases (linkless_stage i).insert (a := a) after v with hsame | ⟨e, hfilled⟩
  · exact hsame ▸ .keep
  · exact hfilled ▸ turn_allocate ha

theorem turn_erase : Turn (a.stage i) (stage (a.erase h).2 i) := by
  rcases (linkless_stage i).erase (a := a) h with hsame | ⟨e, he, hfreed⟩
  · exact hsame ▸ .keep
  · exact hfreed ▸ turn_free he

theorem Holds.turn_call (ha : Holds a s) (c : Call α) :
    Turn (a.stage i) ((a.call c).2.stage i) := by
  cases c with
  | insert after v => exact turn_insert ha.tidy after v
  | push v => exact turn_insert ha.tidy a.tail v
  | erase h => exact turn_erase
  | replace h v =>
    rw [show (a.call (.replace h v)).2.stage i = a.stage i from stage_modify _]
    exact .keep
  | clear => exact turn_clear

/-! ## Histories -/

/-- How often a slot is emptied in a history of calls. -/
def timesEmptied (i : Nat) (a : Arena α) : List (Call α) → Nat
  | [] => 0
  | c :: cs =>
    let now := if (a.stage i).any (·.2) && !((a.call c).2.stage i).any (·.2) then 1 else 0
    now + timesEmptied i (a.call c).2 cs

/-- The generation of a slot counts how often it was emptied. -/
theorem Holds.stage_calls (ha : Holds a s) {g : UInt32} {full : Bool}
    (hi : a.stage i = some (g, full)) (cs : List (Call α)) :
    ∃ full', (a.calls cs).2.stage i = some (g + UInt32.ofNat (timesEmptied i a cs), full') := by
  induction cs generalizing a s g full with
  | nil => exact ⟨full, by simpa [Arena.calls, timesEmptied] using hi⟩
  | cons c cs ih =>
    obtain ⟨t, -, ht, -⟩ := ha.call c
    have hturn := ha.turn_call (i := i) c
    rw [hi] at hturn
    generalize hj : (a.call c).2.stage i = o at hturn
    cases hturn with
    | keep | filled =>
      obtain ⟨full', hrest⟩ := ih ht hj
      exact ⟨full', by simpa [Arena.calls, timesEmptied, hi, hj] using hrest⟩
    | emptied =>
      obtain ⟨full', hrest⟩ := ih ht hj
      rw [UInt32.add_assoc] at hrest
      exact ⟨full', by simpa [Arena.calls, timesEmptied, hi, hj, UInt32.ofNat_add] using hrest⟩

/-- The count of a slot comes round after `2 ^ 32` times. -/
theorem ofNat_eq_zero_iff {n : Nat} : UInt32.ofNat n = 0 ↔ 0x100000000 ∣ n := by
  rw [← UInt32.toNat_inj, UInt32.toNat_ofNat', Nat.dvd_iff_mod_eq_zero]
  rfl

/-- After a history the handle of an entry is good if its slot is full and the count of the slot is
where it was. -/
theorem Holds.contains_calls (ha : Holds a s) (hc : a.contains h = true) (cs : List (Call α)) :
    (a.calls cs).2.contains h = true ↔
      ((a.calls cs).2.stage h.slot).any (·.2) = true ∧ 0x100000000 ∣ timesEmptied h.slot a cs := by
  obtain ⟨full, hstage⟩ := ha.stage_calls (contains_iff_stage.1 hc) cs
  rw [contains_iff_stage, hstage, ← ofNat_eq_zero_iff]
  simp [and_comm]

/-- An arena that refuses a handle in all that it is asked to do with it. -/
structure Rejects (a : Arena α) (h : Handle) : Prop where
  contains : a.contains h = false
  value : a.value? h = none
  next : a.next? h = none
  previous : a.previous? h = none
  insert : ∀ v, ∃ e, a.insert (some h) v = (.error e, a)
  replace : ∀ v, a.replace h v = (none, a)
  erase : ∃ e, a.erase h = (.error e, a)

theorem Holds.rejects (ha : Holds a s) (hc : a.contains h = false) : Rejects a h := by
  have hm : h ∉ handles s := fun hm => by simp [ha.contains_iff.2 hm] at hc
  have he := ha.entry_eq_none hm
  exact ⟨hc, by simp [value?, he], by simp [next?, he], by simp [previous?, he],
    fun v => ⟨_, ha.insert_stale hm v⟩, ha.replace_stale hm, ⟨_, ha.erase_stale hm⟩⟩

/-- An insertion answers the handle of an entry that is there from then on. -/
theorem Holds.contains_answer (ha : Holds a s) {c : Call α} {k : Handle}
    (hk : (a.call c).1 = .handle (.ok k)) : (a.call c).2.contains k = true := by
  obtain ⟨t, hstep, ht, -⟩ := ha.call c
  rw [hk] at hstep
  rw [ht.contains_iff]
  cases hstep <;> simp

/-- A handle whose entry was removed is rejected, and no insertion answers it, until its slot has
been emptied so often that the count comes round. -/
theorem rejected_until_wrap (cs ds : List (Call α)) (h : Handle)
    (hc : (calls ∅ cs).2.contains h = true)
    (hremoved : 0 < timesEmptied h.slot (calls ∅ cs).2 ds)
    (hwrap : timesEmptied h.slot (calls ∅ cs).2 ds < 0x100000000) :
    Rejects ((calls ∅ cs).2.calls ds).2 h ∧
      ∀ c k, (((calls ∅ cs).2.calls ds).2.call c).1 = .handle (.ok k) → k ≠ h := by
  obtain ⟨s, -, hs⟩ := Holds.empty.calls cs
  generalize (calls ∅ cs).2 = a at hs hc hremoved hwrap ⊢
  obtain ⟨t, -, ht⟩ := hs.calls ds
  have hcount : ¬ 0x100000000 ∣ timesEmptied h.slot a ds := Nat.not_dvd_of_pos_of_lt hremoved hwrap
  refine ⟨ht.rejects ?_, ?_⟩
  · rw [← Bool.not_eq_true, hs.contains_calls hc]
    exact fun hdvd => hcount hdvd.2
  · rintro c k hk rfl
    obtain ⟨full, hold⟩ := hs.stage_calls (contains_iff_stage.1 hc) ds
    have hturn := ht.turn_call (i := k.slot) c
    rw [hold, contains_iff_stage.1 (ht.contains_answer hk)] at hturn
    have hzero : k.generation + 0 = k.generation + UInt32.ofNat (timesEmptied k.slot a ds) := by
      rw [UInt32.add_zero]
      exact hturn.generation_eq
    exact hcount (ofNat_eq_zero_iff.1 ((UInt32.add_right_inj _).1 hzero).symm)

/-! ## Round the count -/

/-- An arena of one entry in its first slot. -/
def single (g : UInt32) : Arena Unit where
  slots := #[⟨g, some ⟨(), none, none⟩⟩]
  head := some ⟨0, g⟩
  tail := some ⟨0, g⟩
  size := 1

/-- An arena without an entry, with a first slot. -/
def vacated (g : UInt32) : Arena Unit where
  slots := #[⟨g, none⟩]
  vacant := [0]

theorem call_push_vacated (g : UInt32) : ((vacated g).call (.push ())).2 = single g := by
  simp [call, push, vacated, insert, insertBetween, allocate, setNext, setPrevious, single]

theorem call_erase_single (g : UInt32) :
    ((single g).call (.erase ⟨0, g⟩)).2 = vacated (g + 1) := by
  simp [call, erase, single, entry?, free, setNext, setPrevious, Slot.freed, vacated,
    Option.filter]

/-- The only entry is removed and added again, `n` times. -/
def turns : Nat → UInt32 → List (Call Unit)
  | 0, _ => []
  | n + 1, g => .erase ⟨0, g⟩ :: .push () :: turns n (g + 1)

theorem calls_turns (n : Nat) (g : UInt32) :
    ((single g).calls (turns n g)).2 = single (g + UInt32.ofNat n) := by
  induction n generalizing g with
  | zero => simp [turns, calls]
  | succ n ih =>
    rw [turns, calls, call_erase_single, calls, call_push_vacated, ih, UInt32.ofNat_add,
      UInt32.add_assoc, UInt32.add_comm 1]
    rfl

theorem exists_calls_single (n : Nat) (g : UInt32) :
    ∃ ds, ((vacated g).calls ds).2 = single (g + UInt32.ofNat n) :=
  ⟨.push () :: turns n g, by rw [calls, call_push_vacated, calls_turns]⟩

/-- A handle that was stale after its entry was removed is good again when the count of its slot
has come round. -/
theorem returns_after_wrap : ∃ (h : Handle) (cs ds : List (Call Unit)),
    (calls ∅ cs).2.contains h = true ∧
      ((calls ∅ cs).2.call (.erase h)).2.contains h = false ∧
      (((calls ∅ cs).2.call (.erase h)).2.calls ds).2.contains h = true := by
  have hsingle : (calls ∅ [.push ()]).2 = single 0 := rfl
  have hround : (0 + 1 : UInt32) + UInt32.ofNat 0xffffffff = 0 := by decide
  obtain ⟨ds, hds⟩ := exists_calls_single 0xffffffff (0 + 1)
  rw [hround] at hds
  refine ⟨⟨0, 0⟩, [.push ()], ds, ?_⟩
  rw [hsingle, call_erase_single, hds]
  exact ⟨rfl, rfl, rfl⟩

end Asm6502.Arena
