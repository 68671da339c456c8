import Asm6502.Buffer
import Mathlib.Algebra.Group.Nat.Defs
import Mathlib.Data.List.Induction
import Mathlib.Order.Bounds.Basic

/-!
# Histories of buffers

A program makes buffers, copies them and uses each of them (`Call`). What has become of a buffer
depends on what it was made as and on its own uses alone (`getElem?_calls`, `exists_birth`).

- The bytes of a buffer always fit into its room (`fits_uses`), so that growing adds to the room
  just what it should (`capacity_grow`).
- Room that started from nothing depends on the largest size that was reached, not on the last one:
  it is the first doubling of sixteen above that (`room_uses`).
-/

namespace Asm6502.Buffer

/-! ## Calls -/

/-- What can be done to a buffer. -/
inductive Use where
  | push (byte : UInt8)
  | clear
  | free
  deriving DecidableEq

/-- Leaves no bytes. -/
def Use.Empties (u : Use) : Prop := u = .clear ∨ u = .free

def use (b : Buffer) : Use → Buffer
  | .push byte => b.push byte
  | .clear => b.clear
  | .free => b.free

def uses (b : Buffer) (us : List Use) : Buffer := us.foldl use b

/-- What can be done to buffers that are numbered in the order in which they were made. -/
inductive Call where
  | new
  | ofBytes (bytes : Array UInt8)
  | copy (i : Nat)
  | use (i : Nat) (u : Use)
  deriving DecidableEq

/-- The buffer that a call makes. -/
def made (bs : List Buffer) : Call → Option Buffer
  | .new => some ∅
  | .ofBytes bytes => some (ofArray bytes)
  | .copy i => bs[i]?.map copy
  | .use _ _ => none

def call (bs : List Buffer) : Call → List Buffer
  | .use i u => bs.modify i (·.use u)
  | c => bs ++ (made bs c).toList

def calls (bs : List Buffer) (cs : List Call) : List Buffer := cs.foldl call bs

/-- What is done to the buffer `i`. -/
def usesOf (i : Nat) (cs : List Call) : List Use :=
  cs.filterMap fun
    | .use j u => if j = i then some u else none
    | _ => none

variable {b : Buffer} {bs : List Buffer} {c : Call} {cs : List Call} {u : Use} {us : List Use}
  {i n : Nat}

@[simp] theorem uses_nil : b.uses [] = b := rfl

@[simp] theorem uses_cons : b.uses (u :: us) = (b.use u).uses us := rfl

@[simp] theorem uses_append {vs : List Use} : b.uses (us ++ vs) = (b.uses us).uses vs :=
  List.foldl_append

@[simp] theorem calls_append {ds : List Call} : calls bs (cs ++ ds) = calls (calls bs cs) ds :=
  List.foldl_append

/-! ## One buffer among others -/

/-- A call does to the buffer `i` what it says that is done to it, and nothing else. -/
theorem getElem?_call (h : i < bs.length) :
    (call bs c)[i]? = bs[i]?.map (·.uses (usesOf i [c])) := by
  cases c with
  | use j u =>
    by_cases hj : j = i
    · simp [call, usesOf, hj]
    · simp [call, usesOf, hj]
  | new | ofBytes | copy => simp [call, usesOf, List.getElem?_append_left h]

theorem length_le_length_call : bs.length ≤ (call bs c).length := by
  cases c with
  | use i u => simp [call]
  | new | ofBytes | copy => simp [call]

/-- Whatever calls come, a buffer changes by its own uses only. -/
theorem getElem?_calls (h : i < bs.length) :
    (calls bs cs)[i]? = bs[i]?.map (·.uses (usesOf i cs)) := by
  induction cs generalizing bs with
  | nil => simp [calls, usesOf]
  | cons c cs ih =>
    have hsplit : usesOf i (c :: cs) = usesOf i [c] ++ usesOf i cs :=
      List.filterMap_append (l := [c])
    rw [calls, List.foldl_cons, ← calls, ih (h.trans_le length_le_length_call), getElem?_call h,
      hsplit, Option.map_map]
    simp [Function.comp_def]

/-- A buffer that is there after a call but was not before is the one that the call made. -/
theorem made_of_getElem?_call (h : (call bs c)[i]? = some b) (hi : bs.length ≤ i) :
    i = bs.length ∧ made bs c = some b := by
  have hmade : (bs ++ (made bs c).toList)[i]? = some b := by
    cases c with
    | use j u => simp [call, hi] at h
    | new | ofBytes | copy => exact h
  rw [List.getElem?_append_right hi] at hmade
  cases hm : made bs c with
  | none => simp [hm] at hmade
  | some x =>
    simp only [hm, Option.toList_some, List.getElem?_singleton] at hmade
    split at hmade
    · exact ⟨by omega, hmade⟩
    · cases hmade

/-- Each buffer was made by some call, and is what its uses since then have made of it. -/
theorem exists_birth (h : (calls [] cs)[i]? = some b) :
    ∃ earlier birth later first, cs = earlier ++ birth :: later ∧
      (calls [] earlier).length = i ∧ made (calls [] earlier) birth = some first ∧
      first.uses (usesOf i later) = b := by
  induction cs using List.reverseRecOn generalizing b with
  | nil => simp [calls] at h
  | append_singleton cs c ih =>
    have hcall : (call (calls [] cs) c)[i]? = some b := by rwa [calls_append] at h
    by_cases hi : i < (calls [] cs).length
    · rw [getElem?_call hi, Option.map_eq_some_iff] at hcall
      obtain ⟨b, hb, rfl⟩ := hcall
      obtain ⟨earlier, birth, later, first, rfl, hlength, hmade, rfl⟩ := ih hb
      refine ⟨earlier, birth, later ++ [c], first, by simp, hlength, hmade, ?_⟩
      rw [usesOf, List.filterMap_append, uses_append]
      rfl
    · obtain ⟨hlength, hmade⟩ := made_of_getElem?_call hcall (Nat.le_of_not_lt hi)
      exact ⟨cs, c, [], b, rfl, hlength.symm, hmade, rfl⟩

/-! ## Bytes -/

theorem toList_push {byte : UInt8} : (b.push byte).bytes.toList = b.bytes.toList ++ [byte] := by
  simp only [push, Array.toList_push, List.append_cancel_right_eq]
  unfold reserve
  split_ifs <;> rfl

theorem size_push {byte : UInt8} : (b.push byte).size = b.size + 1 := by
  rw [size, ← Array.length_toList, toList_push, List.length_append, Array.length_toList]
  rfl

/-- `bytes` are those that were pushed since the buffer was last emptied, behind the `first` ones if
it never was. -/
def Leaves (first : List UInt8) (us : List Use) (bytes : List UInt8) : Prop :=
  ∃ past pushed, us = past ++ pushed.map .push ∧
    (past = [] ∧ bytes = first ++ pushed ∨
      (∃ before u, past = before ++ [u] ∧ u.Empties) ∧ bytes = pushed)

theorem toList_uses (b : Buffer) (us : List Use) :
    Leaves b.bytes.toList us (b.uses us).bytes.toList := by
  induction us using List.reverseRecOn with
  | nil => exact ⟨[], [], rfl, .inl ⟨rfl, (List.append_nil _).symm⟩⟩
  | append_singleton us u ih =>
    cases u with
    | push byte =>
      obtain ⟨past, pushed, rfl, hbytes⟩ := ih
      refine ⟨past, pushed ++ [byte], by simp, ?_⟩
      rw [uses_append, uses_cons, uses_nil, use, toList_push, ← List.append_assoc]
      exact hbytes.imp (fun h => ⟨h.1, by rw [h.2]⟩) fun h => ⟨h.1, by rw [h.2]⟩
    | clear =>
      have hempty : (b.uses (us ++ [.clear])).bytes.toList = [] := by rw [uses_append]; rfl
      exact ⟨us ++ [.clear], [], by simp, .inr ⟨⟨us, .clear, rfl, .inl rfl⟩, hempty⟩⟩
    | free =>
      have hempty : (b.uses (us ++ [.free])).bytes.toList = [] := by rw [uses_append]; rfl
      exact ⟨us ++ [.free], [], by simp, .inr ⟨⟨us, .free, rfl, .inr rfl⟩, hempty⟩⟩

/-! ## Room -/

/-- Growing takes the size from the new room, and the size never is the larger one. -/
theorem capacity_grow (h : b.size ≤ b.capacity) : (b.grow n).capacity = b.capacity + n := by
  simp only [grow, reserveExact]
  omega

theorem capacity_push {byte : UInt8} (h : b.size ≤ b.capacity) :
    (b.push byte).capacity =
      if b.capacity = 0 then initialCapacity
      else if b.capacity ≤ b.size + 1 then 2 * b.capacity
      else b.capacity := by
  simp only [push, reserve]
  split_ifs with hnone hfull
  · rw [capacity_grow h, hnone, Nat.zero_add]
  · rw [capacity_grow h, Nat.two_mul]
  · rfl

theorem fits_use (h : b.size ≤ b.capacity) : (b.use u).size ≤ (b.use u).capacity := by
  cases u with
  | push byte =>
    rw [use, size_push, capacity_push h]
    split_ifs with hnone hfull
    · rw [hnone] at h
      exact (Nat.succ_le_succ h).trans (by decide)
    · omega
    · omega
  | clear => exact Nat.zero_le _
  | free => exact Nat.zero_le _

theorem fits_uses (h : b.size ≤ b.capacity) : (b.uses us).size ≤ (b.uses us).capacity := by
  induction us generalizing b with
  | nil => exact h
  | cons u us ih => exact ih (fits_use h)

theorem fits_made (h : made bs c = some b) : b.size ≤ b.capacity := by
  cases c with
  | new =>
    obtain rfl := Option.some.inj h
    exact Nat.le_refl 0
  | ofBytes bytes =>
    obtain rfl := Option.some.inj h
    exact Nat.le_refl _
  | copy i =>
    obtain ⟨b, -, rfl⟩ := Option.map_eq_some_iff.1 h
    exact Nat.le_refl _
  | use i u => cases h

theorem capacity_le_use (h : b.size ≤ b.capacity) :
    b.capacity ≤ (b.use u).capacity ∨ u = .free ∧ (b.use u).capacity = 0 := by
  cases u with
  | push byte =>
    rw [use, capacity_push h]
    split_ifs <;> omega
  | clear => exact .inl (Nat.le_refl _)
  | free => exact .inr ⟨rfl, rfl⟩

/-! ## The law of growth -/

/-- Room for sixteen bytes, doubled some number of times. -/
def Doubling (c : Nat) : Prop := ∃ j, c = 16 * 2 ^ j

theorem Doubling.two_mul {c : Nat} (h : Doubling c) : Doubling (2 * c) := by
  obtain ⟨j, rfl⟩ := h
  exact ⟨j + 1, by rw [Nat.pow_succ]; omega⟩

theorem Doubling.initialCapacity_le {c : Nat} (h : Doubling c) : initialCapacity ≤ c := by
  obtain ⟨j, rfl⟩ := h
  exact Nat.le_mul_of_pos_right 16 (Nat.two_pow_pos j)

theorem Doubling.two_mul_le {c d : Nat} (hc : Doubling c) (hd : Doubling d) (h : c < d) :
    2 * c ≤ d := by
  obtain ⟨j, rfl⟩ := hc
  obtain ⟨k, rfl⟩ := hd
  have hjk : j < k := (Nat.pow_lt_pow_iff_right Nat.one_lt_two).1 (Nat.lt_of_mul_lt_mul_left h)
  calc 2 * (16 * 2 ^ j) = 16 * 2 ^ (j + 1) := by rw [Nat.pow_succ]; omega
    _ ≤ 16 * 2 ^ k := Nat.mul_le_mul_left 16 (Nat.pow_le_pow_right Nat.two_pos hjk)

/-- No size that is reached on the way is `c` or more. -/
def Above (b : Buffer) (us : List Use) (c : Nat) : Prop :=
  ∀ past, past <+: us → (b.uses past).size < c

theorem above_concat {c : Nat} :
    Above b (us ++ [u]) c ↔ Above b us c ∧ ((b.uses us).use u).size < c := by
  have hlast : b.uses (us ++ [u]) = (b.uses us).use u := uses_append
  constructor
  · intro h
    exact ⟨fun past hpast => h past (hpast.trans (List.prefix_append us [u])),
      hlast ▸ h _ List.prefix_rfl⟩
  · rintro ⟨hbefore, hnow⟩ past hpast
    rcases List.prefix_concat_iff.1 hpast with rfl | hpast
    · rwa [hlast]
    · exact hbefore past hpast

/-- A push doubles the room when the size that it makes would fill it. -/
theorem room_push {byte : UInt8}
    (h : IsLeast {c | Doubling c ∧ Above b us c} (b.uses us).capacity) :
    IsLeast {c | Doubling c ∧ Above b (us ++ [.push byte]) c}
      ((b.uses us).use (.push byte)).capacity := by
  obtain ⟨⟨hdoubling, habove⟩, hleast⟩ := h
  have hfits : (b.uses us).size < (b.uses us).capacity := habove us List.prefix_rfl
  simp only [above_concat, use, size_push, capacity_push hfits.le]
  split_ifs with hnone hfull
  · omega
  · refine ⟨⟨hdoubling.two_mul, fun past hpast => ?_, by omega⟩, ?_⟩
    · have := habove past hpast
      omega
    · rintro c ⟨hc, -, hnow⟩
      exact hdoubling.two_mul_le hc (by omega)
  · exact ⟨⟨hdoubling, habove, by omega⟩, fun c hc => hleast ⟨hc.1, hc.2.1⟩⟩

/-- Clearing keeps the room, and nothing is larger than what was reached before. -/
theorem room_clear (h : IsLeast {c | Doubling c ∧ Above b us c} (b.uses us).capacity) :
    IsLeast {c | Doubling c ∧ Above b (us ++ [.clear]) c} ((b.uses us).use .clear).capacity := by
  obtain ⟨⟨hdoubling, habove⟩, hleast⟩ := h
  have hnow : ((b.uses us).use .clear).size < (b.uses us).capacity :=
    (Nat.zero_le _).trans_lt (habove us List.prefix_rfl)
  simp only [above_concat]
  exact ⟨⟨hdoubling, habove, hnow⟩, fun c hc => hleast ⟨hc.1, hc.2.1⟩⟩

theorem eq_empty_of_unpushed (h : ∀ byte, .push byte ∉ us) : (∅ : Buffer).uses us = ∅ := by
  induction us with
  | nil => rfl
  | cons u us ih =>
    have hrest : ∀ byte, .push byte ∉ us := fun byte hm => h byte (List.mem_cons_of_mem u hm)
    cases u with
    | push byte => exact absurd List.mem_cons_self (h byte)
    | clear => exact ih hrest
    | free => exact ih hrest

/-- Room that started from nothing is the least doubling above all sizes that were reached. -/
theorem room_uses {byte : UInt8} (hfree : .free ∉ us) (hpush : .push byte ∈ us) :
    IsLeast {c | Doubling c ∧ Above ∅ us c} ((∅ : Buffer).uses us).capacity := by
  induction us using List.reverseRecOn generalizing byte with
  | nil => cases hpush
  | append_singleton us u ih =>
    rw [List.mem_append, not_or] at hfree
    rw [uses_append, uses_cons, uses_nil]
    cases u with
    | push x =>
      by_cases hbefore : ∃ y, .push y ∈ us
      · obtain ⟨y, hy⟩ := hbefore
        exact room_push (ih hfree.1 hy)
      · -- the first byte of all
        have hnone : ∀ past, past <+: us → (∅ : Buffer).uses past = ∅ := fun past hpast =>
          eq_empty_of_unpushed fun y hy => hbefore ⟨y, hpast.subset hy⟩
        simp only [above_concat, hnone us List.prefix_rfl]
        refine ⟨⟨⟨0, rfl⟩, fun past hpast => ?_, (by decide : 1 < 16)⟩,
          fun c hc => hc.1.initialCapacity_le⟩
        rw [hnone past hpast]
        exact (by decide : 0 < 16)
    | clear =>
      have hbefore : .push byte ∈ us := by simpa using hpush
      exact room_clear (ih hfree.1 hbefore)
    | free => exact absurd (List.mem_singleton_self _) hfree.2

/-- What the room `c` is after the uses `us` of a buffer without room. -/
def Grown (b : Buffer) (us : List Use) (c : Nat) : Prop :=
  ((∀ byte, .push byte ∉ us) → c = 0) ∧
    ∀ byte, .push byte ∈ us → IsLeast {d | Doubling d ∧ Above b us d} c

theorem grown_uses (hfree : .free ∉ us) : Grown ∅ us ((∅ : Buffer).uses us).capacity :=
  ⟨fun hnone => by rw [eq_empty_of_unpushed hnone]; rfl, fun _ => room_uses hfree⟩

/-- Sixteen bytes took more than sixteen, and clearing keeps that. -/
example : ((∅ : Buffer).uses (List.replicate 16 (.push 0) ++ [.clear, .push 0])).capacity = 32 := by
  decide

/-! ## Histories -/

end Asm6502.Buffer
