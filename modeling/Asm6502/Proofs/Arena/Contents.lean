import Asm6502.Proofs.Arena.Links

/-!
# Contents

What an arena holds is a sequence of handles with their values (`Holds`). Here each operation gets
its effect on that sequence:

- insertion puts the new entry at the front or right after its handle, under a handle that the
  sequence does not have (`Holds.insert_front`, `Holds.insert_after`, `Holds.push`);
- `erase` takes one entry out, `replace` changes one value, `clear` leaves nothing;
- a handle that the sequence does not have is refused, and nothing changes
  (`Holds.insert_stale`, `Holds.erase_stale`, `Holds.replace_stale`);
- walks from either end and positions follow the sequence (`Holds.stepsAfter_eq`,
  `Holds.handleAt_eq`, `Holds.toList_eq`).
-/

namespace Asm6502.Arena

variable {α : Type} {a b : Arena α} {l r s : List (Handle × α)}

/-- An arena holds a sequence: its entries are those of the sequence, linked in that order. -/
structure Holds (a : Arena α) (s : List (Handle × α)) : Prop where
  tidy : Tidy a
  nodup : (handles s).Nodup
  segment : Segment a none s none
  only : ∀ h, a.contains h = true → h ∈ handles s
  head : a.head = front s none
  tail : a.tail = back none s
  size : a.size = s.length

theorem Holds.contains_iff (ha : Holds a s) {h : Handle} : a.contains h = true ↔ h ∈ handles s :=
  ⟨ha.only h, ha.segment.contains⟩

theorem Holds.entry_eq {h : Handle} {v : α} (ha : Holds a (l ++ (h, v) :: r)) :
    a.entry? h = some ⟨v, front r none, back none l⟩ :=
  (segment_append.1 ha.segment).2.1

theorem Holds.empty : Holds (∅ : Arena α) [] where
  tidy := .empty
  nodup := List.nodup_nil
  segment := trivial
  only h hc := by
    rw [contains, entry?_of_no_slot (by simp [EmptyCollection.emptyCollection])] at hc
    cases hc
  head := rfl
  tail := rfl
  size := rfl

theorem Holds.clear (ha : Holds a s) : Holds a.clear [] where
  tidy := ha.tidy.clear
  nodup := List.nodup_nil
  segment := trivial
  only h hc := by simp [contains, entry?_clear] at hc
  head := rfl
  tail := rfl
  size := rfl

/-- After relinking around `m`, the arena holds what lies left, `m` and what lies right. -/
theorem Relinked.holds {m : List (Handle × α)}
    (hb : Relinked a b l r (front (m ++ r) none) (back none (l ++ m)))
    (hm : Segment b (back none l) m (front r none)) (hd : (handles (l ++ (m ++ r))).Nodup)
    (honly : ∀ h, a.contains h = true → h ∈ handles (l ++ (m ++ r)))
    (hhead : l ≠ [] → a.head = front l none) (htail : r ≠ [] → a.tail = back none r)
    {n : Nat} (hn : n = (l ++ (m ++ r)).length) : Holds { b with size := n } (l ++ (m ++ r)) where
  tidy := hb.tidy.of_same_slots rfl fun _ _ => Iff.rfl
  nodup := hd
  segment := by
    rw [segment_append, segment_append, ← back_append]
    exact ⟨hb.left.congr fun _ _ => rfl, hm.congr fun _ _ => rfl, hb.right.congr fun _ _ => rfl⟩
  only h hc := honly h ((hb.contains h).symm.trans hc)
  head := by
    rw [front_append]
    refine hb.head.trans ?_
    cases l with
    | nil => rfl
    | cons p l => exact hhead (by simp)
  tail := by
    rw [← List.append_assoc, back_append]
    refine hb.tail.trans ?_
    by_cases hr : r = []
    · rw [if_pos hr, hr]
      rfl
    · rw [if_neg hr, htail hr, back_of_ne_nil hr]
  size := hn

theorem Holds.head_left (ha : Holds a (l ++ r)) (hl : l ≠ []) : a.head = front l none := by
  rw [ha.head, front_append]
  cases l with
  | nil => exact absurd rfl hl
  | cons p l => rfl

theorem Holds.tail_right (ha : Holds a (l ++ r)) (hr : r ≠ []) : a.tail = back none r := by
  rw [ha.tail, back_append, back_of_ne_nil hr]

/-! ## Operations -/

theorem ends_allocate {e : Entry α} :
    (a.allocate e).2.head = a.head ∧ (a.allocate e).2.tail = a.tail ∧
      (a.allocate e).2.size = a.size := by
  unfold allocate
  split
  · exact ⟨rfl, rfl, rfl⟩
  · exact ⟨rfl, rfl, rfl⟩

/-- Filling a slot of an arena that holds `s` takes a handle that `s` does not have. -/
theorem Holds.allocate (ha : Holds a s) (e : Entry α) :
    ∃ h b, a.allocate e = (h, b) ∧ h ∉ handles s ∧ Tidy b ∧
      (∀ k, b.entry? k = if k = h then some e else a.entry? k) ∧
      b.head = a.head ∧ b.tail = a.tail ∧ b.size = a.size := by
  refine ⟨(a.allocate e).1, (a.allocate e).2, rfl, fun hm => ?_, ha.tidy.allocate,
    fun k => entry?_allocate ha.tidy, ends_allocate⟩
  have hc := ha.segment.contains hm
  rw [contains, entry?_allocate_fst ha.tidy] at hc
  cases hc

theorem Holds.insertBetween (ha : Holds a (l ++ r)) (v : α) :
    ∃ h b, a.insertBetween (back none l) (front r none) v = (.ok h, b) ∧
      h ∉ handles (l ++ r) ∧ Holds b (l ++ (h, v) :: r) := by
  obtain ⟨h, a', hal, hfresh, htidy, hentry, hhead, htail, hsize⟩ :=
    ha.allocate ⟨v, front r none, back none l⟩
  have hold : ∀ k ∈ handles (l ++ r), a'.entry? k = a.entry? k := by
    intro k hk
    rw [hentry, if_neg fun hkh : k = h => hfresh (hkh ▸ hk)]
  obtain ⟨hl, hr⟩ := segment_append.1 ha.segment
  obtain ⟨b, c, hb, hc, hrel⟩ := relink (t := some h) (u := some h) htidy ha.nodup
    (hl.congr fun k hk => hold k (by simp [hk])) (hr.congr fun k hk => hold k (by simp [hk]))
  refine ⟨h, { c with size := c.size + 1 }, ?_, hfresh, ?_⟩
  · simp only [Arena.insertBetween, hal, hb, hc]
  refine Relinked.holds (a := a') (m := [(h, v)]) (by rwa [back_append]) ⟨?_, trivial⟩
    ?_ ?_ ?_ ?_ ?_
  · rw [hrel.frame h hfresh, hentry, if_pos rfl]
    rfl
  · simpa [List.nodup_middle, List.nodup_cons] using
      ⟨by simpa using hfresh, by simpa using ha.nodup⟩
  · intro k hk
    by_cases hkh : k = h
    · simp [hkh]
    · rw [contains, hentry, if_neg hkh] at hk
      have hmem := ha.only k hk
      simp only [handles_append, List.mem_append] at hmem ⊢
      exact hmem.imp_right .inr
  · exact fun hl => hhead.trans (ha.head_left hl)
  · exact fun hr => htail.trans (ha.tail_right hr)
  · rw [hrel.size, hsize, ha.size]
    simp
    omega

theorem Holds.erase {h : Handle} {v : α} (ha : Holds a (l ++ (h, v) :: r)) :
    ∃ b, a.erase h = (.ok v, b) ∧ Holds b (l ++ r) := by
  have he := ha.entry_eq
  have hd : (handles ((h, v) :: (l ++ r))).Nodup := by
    simpa [List.nodup_middle] using ha.nodup
  obtain ⟨hfresh, hdlr⟩ := List.nodup_cons.1 hd
  have hold : ∀ k ∈ handles (l ++ r), entry? (a.free h.slot) k = a.entry? k := by
    intro k hk
    rw [entry?_free he, if_neg fun hkh : k = h => hfresh (hkh ▸ hk)]
  obtain ⟨hl, -, hr⟩ := segment_append.1 ha.segment
  obtain ⟨b, c, hb, hc, hrel⟩ := relink (t := front r none) (u := back none l)
    (ha.tidy.free he) hdlr
    (hl.congr fun k hk => hold k (by simp [hk])) (hr.congr fun k hk => hold k (by simp [hk]))
  refine ⟨{ c with size := c.size - 1 }, ?_, ?_⟩
  · have hsize : a.size ≠ 0 := by simp [ha.size]
    simp only [Arena.erase, if_neg hsize, he, hb, hc]
  refine Relinked.holds (m := []) (by simpa using hrel) trivial hdlr ?_ ?_ ?_ ?_
  · intro k hk
    by_cases hkh : k = h
    · rw [contains, entry?_free he, if_pos hkh] at hk
      cases hk
    · rw [contains, entry?_free he, if_neg hkh] at hk
      have hmem := ha.only k hk
      simpa [hkh] using hmem
  · exact fun hl => ha.head_left hl
  · intro hr
    have ht := (List.append_cons l (h, v) r ▸ ha : Holds a (l ++ [(h, v)] ++ r)).tail_right hr
    exact ht
  · rw [hrel.size]
    simp [free, ha.size]

theorem Holds.replace {h : Handle} {v : α} (ha : Holds a (l ++ (h, v) :: r)) (w : α) :
    (a.replace h w).1 = some v ∧ Holds (a.replace h w).2 (l ++ (h, w) :: r) := by
  have he := ha.entry_eq
  have hd : (handles ((h, v) :: (l ++ r))).Nodup := by
    simpa [List.nodup_middle] using ha.nodup
  have hfresh := (List.nodup_cons.1 hd).1
  obtain ⟨hl, -, hr⟩ := segment_append.1 ha.segment
  have hsame : handles (l ++ (h, w) :: r) = handles (l ++ (h, v) :: r) := by simp
  have hentry : ∀ k, entry? (a.replace h w).2 k =
      if k = h then (a.entry? k).map ({ · with value := w }) else a.entry? k :=
    fun k => entry?_modify _
  have hold : ∀ k ∈ handles (l ++ r), entry? (a.replace h w).2 k = a.entry? k := by
    intro k hk
    rw [hentry, if_neg fun hkh : k = h => hfresh (hkh ▸ hk)]
  obtain ⟨hhead, htail, hsize⟩ := ends_modify (a := a) ({ · with value := w }) h
  refine ⟨by simp [Arena.replace, value?, he], ha.tidy.modify _, hsame ▸ ha.nodup,
    ?_, ?_, ?_, ?_, ?_⟩
  · refine segment_append.2 ⟨hl.congr fun k hk => hold k (by simp [hk]), ?_,
      hr.congr fun k hk => hold k (by simp [hk])⟩
    rw [hentry, if_pos rfl, he]
    rfl
  · intro k hk
    rw [hsame]
    refine ha.only k ?_
    rw [contains, hentry] at hk
    rw [contains]
    split at hk
    · simpa using hk
    · exact hk
  · refine hhead.trans (ha.head.trans ?_)
    cases l <;> rfl
  · refine htail.trans (ha.tail.trans ?_)
    rw [back_append, back_append]
    rfl
  · refine hsize.trans (ha.size.trans ?_)
    simp

/-- Where an entry stands in a sequence. -/
theorem split_of_mem {h : Handle} (hm : h ∈ handles s) : ∃ l v r, s = l ++ (h, v) :: r := by
  obtain ⟨p, hp, rfl⟩ := List.mem_map.1 hm
  obtain ⟨l, r, rfl⟩ := List.append_of_mem hp
  exact ⟨l, p.2, r, rfl⟩

theorem Holds.insert_front (ha : Holds a s) (v : α) :
    ∃ h b, a.insert none v = (.ok h, b) ∧ h ∉ handles s ∧ Holds b ((h, v) :: s) := by
  obtain ⟨h, b, hb, hfresh, hh⟩ := Holds.insertBetween (l := []) ha v
  refine ⟨h, b, ?_, hfresh, hh⟩
  rw [insert, ha.head]
  exact hb

theorem Holds.insert_after {h : Handle} {v : α} (ha : Holds a (l ++ (h, v) :: r)) (w : α) :
    ∃ k b, a.insert (some h) w = (.ok k, b) ∧ k ∉ handles (l ++ (h, v) :: r) ∧
      Holds b (l ++ (h, v) :: (k, w) :: r) := by
  rw [List.append_cons] at ha
  obtain ⟨k, b, hb, hfresh, hh⟩ := ha.insertBetween w
  refine ⟨k, b, ?_, by rwa [List.append_cons], by simpa using hh⟩
  rw [← List.append_cons] at ha
  rw [back_append] at hb
  simp only [insert, ha.entry_eq]
  exact hb

theorem Holds.push (ha : Holds a s) (v : α) :
    ∃ h b, a.push v = (.ok h, b) ∧ h ∉ handles s ∧ Holds b (s ++ [(h, v)]) := by
  rcases List.eq_nil_or_concat s with rfl | ⟨l, ⟨k, x⟩, rfl⟩
  · obtain ⟨h, b, hb, hfresh, hh⟩ := ha.insert_front v
    refine ⟨h, b, ?_, hfresh, hh⟩
    rw [Arena.push, ha.tail]
    exact hb
  · rw [List.concat_eq_append] at ha ⊢
    obtain ⟨h, b, hb, hfresh, hh⟩ := ha.insert_after v
    refine ⟨h, b, ?_, hfresh, by simpa using hh⟩
    rw [Arena.push, ha.tail, back_append]
    exact hb

/-! ## Refusals -/

theorem Holds.entry_eq_none (ha : Holds a s) {h : Handle} (hm : h ∉ handles s) :
    a.entry? h = none := by
  have hc : ¬ a.contains h = true := fun hc => hm (ha.only h hc)
  simpa [Arena.contains] using hc

theorem Holds.insert_stale (ha : Holds a s) {h : Handle} (hm : h ∉ handles s) (v : α) :
    a.insert (some h) v = (.error (.ofCause (.invalidEntry h.slot)), a) := by
  simp [insert, ha.entry_eq_none hm]

theorem Holds.erase_stale (ha : Holds a s) {h : Handle} (hm : h ∉ handles s) :
    a.erase h = (.error (.ofCause (if s = [] then .emptyList else .invalidEntry h.slot)), a) := by
  unfold Arena.erase
  by_cases hs : s = []
  · simp [hs, ha.size]
  · rw [if_neg (by simpa [ha.size] using hs), if_neg hs, ha.entry_eq_none hm]

theorem Holds.replace_stale (ha : Holds a s) {h : Handle} (hm : h ∉ handles s) (v : α) :
    a.replace h v = (none, a) := by
  simp [Arena.replace, value?, Arena.modify, Arena.contains, ha.entry_eq_none hm]

/-! ## Walks -/

theorem Holds.next?_eq {h : Handle} {v : α} (ha : Holds a (l ++ (h, v) :: r)) :
    a.next? h = front r none := by
  simp [next?, ha.entry_eq]

theorem Holds.previous?_eq {h : Handle} {v : α} (ha : Holds a (l ++ (h, v) :: r)) :
    a.previous? h = back none l := by
  simp [previous?, ha.entry_eq]

theorem front_eq_head? (s : List (Handle × α)) : front s none = (handles s).head? := by
  cases s <;> rfl

/-- The entry at a place, and where it leads. -/
theorem Holds.entry_getElem (ha : Holds a s) {i : Nat} (hi : i < s.length) :
    ∃ e, a.entry? s[i].1 = some e ∧ e.value = s[i].2 ∧ e.next = (handles s)[i + 1]? := by
  have hsplit : s.take i ++ s[i] :: s.drop (i + 1) = s := by
    rw [List.getElem_cons_drop, List.take_append_drop]
  have he := Holds.entry_eq (l := s.take i) (r := s.drop (i + 1)) (hsplit.symm ▸ ha)
  refine ⟨_, he, rfl, ?_⟩
  rw [front_eq_head?, handles, List.map_drop, List.head?_drop]
  rfl

theorem Holds.stepsAfter_eq (ha : Holds a (l ++ r)) (i : Nat) :
    a.stepsAfter i (front r none) = (handles r)[i]? := by
  induction i generalizing l r with
  | zero => cases r <;> rfl
  | succ i ih =>
    cases r with
    | nil => simpa [stepsAfter, front] using ih ha
    | cons p r =>
      have hnext : (front (p :: r) none).bind a.next? = front r none := ha.next?_eq
      rw [List.append_cons] at ha
      rw [stepsAfter, hnext, ih ha]
      rfl

theorem Holds.handleAt_eq (ha : Holds a s) (i : Nat) :
    a.handleAt i = match (handles s)[i]? with
      | some h => .ok h
      | none => .error (.ofCause (.indexOutOfRange i)) := by
  have hsteps := Holds.stepsAfter_eq (l := []) ha i
  unfold handleAt
  by_cases hi : i < a.size
  · rw [if_pos hi, ha.head]
    cases hh : (handles s)[i]? <;> rw [hsteps, hh]
  · rw [if_neg hi, List.getElem?_eq_none (by simpa [handles, ha.size] using hi)]

theorem Holds.collect_next (ha : Holds a (l ++ r)) (n : Nat) (k : Option Handle) :
    Iter.collect Iter.next n ⟨a, front r none, k, r.length⟩ = (r.map (·.2)).take n := by
  induction n generalizing l r with
  | zero => simp [Iter.collect]
  | succ n ih =>
    cases r with
    | nil => simp [Iter.collect, Iter.next]
    | cons p r =>
      have hstep : Iter.next ⟨a, front (p :: r) none, k, (p :: r).length⟩ =
          (some p.2, ⟨a, front r none, k, r.length⟩) := by
        simp [Iter.next, front, ha.entry_eq]
      rw [List.append_cons] at ha
      simp only [Iter.collect, hstep, ih ha]
      rfl

theorem Holds.toList_eq (ha : Holds a s) : a.toList = s.map (·.2) := by
  rw [toList, iter, ha.head, ha.size, Holds.collect_next (l := []) ha]
  exact List.take_of_length_le (by simp)

/-! ## Arenas of lists -/

theorem holds_ofList (vs : List α) : ∃ s, Holds (ofList vs) s ∧ s.map (·.2) = vs := by
  suffices h : ∀ (a : Arena α) s, Holds a s → ∃ s',
    Holds (vs.foldl (fun a v => (a.push v).2) a) s' ∧
      s'.map (·.2) = s.map (·.2) ++ vs from h ∅ [] .empty
  induction vs with
  | nil => exact fun a s ha => ⟨s, ha, by simp⟩
  | cons v vs ih =>
    intro a s ha
    obtain ⟨h, b, hb, -, hh⟩ := ha.push v
    obtain ⟨s', hs', hmap⟩ := ih b _ hh
    refine ⟨s', ?_, by simp [hmap]⟩
    rw [List.foldl_cons, hb]
    exact hs'

theorem toList_ofList (vs : List α) : (ofList vs).toList = vs := by
  obtain ⟨s, hs, hmap⟩ := holds_ofList vs
  rw [hs.toList_eq, hmap]

end Asm6502.Arena
