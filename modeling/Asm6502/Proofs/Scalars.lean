import Asm6502.Proofs.Boundaries
import Mathlib.Algebra.Group.Nat.Defs

/-!
# Reading scalars

What a run of letters and digits comes to as a scalar depends on two things only: the longest part
at its front that consists of digits (`Grammar.leading`), and the number that this part stands for
(`Grammar.numeral_of_overflow`, `Grammar.numeral_of_value`, `Grammar.numeral_of_invalid`). The
number is one without bounds; it never falls while digits are added, so the part decides on an
overflow although reading stops at the first digit that is too much.

`Scalar.readWords` reads in words of 16 bits: unchecked if there are at most four digits, else with
a check of each digit, then of each product, then of each sum. It gives the same
(`Scalar.read_eq_readWords`).
-/

namespace Asm6502

/-! ## Words -/

namespace Scalar

variable {radix n d : Nat} {text : Bytes}

/-- The product of two words, if it is a word. -/
def mul? (a b : UInt16) : Option UInt16 :=
  if a.toNat * b.toNat < 0x10000 then some (a * b) else none

/-- The sum of two words, if it is a word. -/
def add? (a b : UInt16) : Option UInt16 :=
  if a.toNat + b.toNat < 0x10000 then some (a + b) else none

/-- The word of the digits read so far, followed by more digits; nothing is checked but these. -/
def readUnchecked (radix : Nat) : UInt16 → Bytes → Except ScalarFault UInt16
  | value, [] => .ok value
  | value, b :: rest =>
    match digit? radix b with
    | none => .error .invalid
    | some d => readUnchecked radix (value * UInt16.ofNat radix + UInt16.ofNat d) rest

/-- The word of the digits read so far, followed by more digits. -/
def readChecked (radix : Nat) : UInt16 → Bytes → Except ScalarFault UInt16
  | value, [] => .ok value
  | value, b :: rest =>
    match digit? radix b with
    | none => .error .invalid
    | some d =>
      match mul? value (UInt16.ofNat radix) with
      | none => .error .overflow
      | some product =>
        match add? product (UInt16.ofNat d) with
        | none => .error .overflow
        | some sum => readChecked radix sum rest

/-- The word of a text in a radix. Four digits fit into a word in every radix up to sixteen. -/
def readWords (radix : Nat) (text : Bytes) : Except ScalarFault UInt16 :=
  if text = [] then .error .invalid
  else if text.length ≤ 4 then readUnchecked radix 0 text
  else readChecked radix 0 text

theorem digit?_lt {b : UInt8} (h : digit? radix b = some d) : d < radix := by
  simpa using (Option.filter_eq_some_iff.1 h).2

theorem toNat_ofNat_of_lt (h : n < 0x10000) : (UInt16.ofNat n).toNat = n :=
  UInt16.toNat_ofNat_of_lt' h

theorem step_eq (n d : Nat) : UInt16.ofNat n * UInt16.ofNat radix + UInt16.ofNat d =
    UInt16.ofNat (n * radix + d) := by
  simp [UInt16.ofNat_add, UInt16.ofNat_mul]

theorem mul?_eq (hn : n < 0x10000) (hr : radix < 0x10000) :
    mul? (UInt16.ofNat n) (UInt16.ofNat radix) =
      if n * radix < 0x10000 then some (UInt16.ofNat (n * radix)) else none := by
  rw [mul?, toNat_ofNat_of_lt hn, toNat_ofNat_of_lt hr, UInt16.ofNat_mul]

theorem add?_eq (hn : n < 0x10000) (hd : d < 0x10000) : add? (UInt16.ofNat n) (UInt16.ofNat d) =
    if n + d < 0x10000 then some (UInt16.ofNat (n + d)) else none := by
  rw [add?, toNat_ofNat_of_lt hn, toNat_ofNat_of_lt hd, UInt16.ofNat_add]

/-- A product that is too large leaves no sum that fits. -/
theorem readFrom_eq_readChecked (hr : radix < 0x10000) (hn : n < 0x10000) :
    readFrom radix n text = readChecked radix (UInt16.ofNat n) text := by
  induction text generalizing n with
  | nil => rfl
  | cons b text ih =>
    rw [readFrom, readChecked]
    cases hb : digit? radix b with
    | none => rfl
    | some d =>
      have hd := digit?_lt hb
      simp only [mul?_eq hn hr]
      by_cases hproduct : n * radix < 0x10000
      · simp only [if_pos hproduct, add?_eq hproduct (by omega : d < 0x10000)]
        by_cases hsum : n * radix + d < 0x10000
        · simp only [if_pos hsum]
          exact ih hsum
        · simp only [if_neg hsum]
      · simp only [if_neg hproduct, if_neg (by omega : ¬ n * radix + d < 0x10000)]

/-- As long as all the digits to come leave room, no step needs a check. -/
theorem readFrom_eq_readUnchecked (hroom : (n + 1) * radix ^ text.length ≤ 0x10000) :
    readFrom radix n text = readUnchecked radix (UInt16.ofNat n) text := by
  induction text generalizing n with
  | nil => rfl
  | cons b text ih =>
    rw [readFrom, readUnchecked]
    cases hb : digit? radix b with
    | none => rfl
    | some d =>
      have hd := digit?_lt hb
      have hnext : (n * radix + d + 1) * radix ^ text.length ≤ 0x10000 := by
        have hle : n * radix + d + 1 ≤ (n + 1) * radix := by rw [Nat.add_mul]; omega
        calc (n * radix + d + 1) * radix ^ text.length
            ≤ (n + 1) * radix * radix ^ text.length := Nat.mul_le_mul_right _ hle
          _ = (n + 1) * radix ^ (b :: text).length := by
            rw [List.length_cons, Nat.pow_succ', Nat.mul_assoc]
          _ ≤ 0x10000 := hroom
      have hpos : 0 < radix ^ text.length := Nat.pow_pos (by omega)
      have hfits : n * radix + d < 0x10000 :=
        Nat.lt_of_lt_of_le (Nat.lt_succ_self _)
          (Nat.le_trans (Nat.le_mul_of_pos_right _ hpos) hnext)
      simp only [if_pos hfits, step_eq]
      exact ih hnext

theorem read_eq_readWords (hr : 0 < radix) (hr' : radix ≤ 16) (text : Bytes) :
    read radix text = readWords radix text := by
  unfold readWords
  split
  · rename_i h
    rw [h]
    rfl
  · rename_i hne
    rw [Grammar.read_of_ne_nil hne]
    split
    · rename_i hlen
      have hroom : radix ^ text.length ≤ 0x10000 := calc
        radix ^ text.length ≤ radix ^ 4 := Nat.pow_le_pow_right hr hlen
        _ ≤ 16 ^ 4 := Nat.pow_le_pow_left hr' 4
      exact readFrom_eq_readUnchecked (by simpa using hroom)
    · exact readFrom_eq_readChecked (by omega) (by decide)

end Scalar

/-! ## The digits that count -/

theorem Ascii.text_append (bs cs : Bytes) : text (bs ++ cs) = text bs ++ text cs := by
  rw [text, List.map_append, String.ofList_append]
  rfl

namespace Grammar

variable {radix : Nat} {sign : String} {run digits : Bytes}

/-- The longest part at the front that consists of digits. -/
def leading (radix : Nat) (run : Bytes) : Bytes :=
  run.takeWhile fun b => (Scalar.digit? radix b).isSome

theorem leading_digits (radix : Nat) (run : Bytes) : ∀ b ∈ leading radix run, IsDigit radix b :=
  fun b hb => List.all_eq_true.1 List.all_takeWhile b hb

theorem leading_append (hd : ∀ b ∈ digits, IsDigit radix b) (more : Bytes) :
    leading radix (digits ++ more) = digits ++ leading radix more :=
  List.takeWhile_append_of_pos hd

theorem exists_leading (radix : Nat) (run : Bytes) :
    ∃ more, run = leading radix run ++ more ∧ ∀ b, more.head? = some b → ¬ IsDigit radix b := by
  refine ⟨run.dropWhile fun b => (Scalar.digit? radix b).isSome,
    List.takeWhile_append_dropWhile.symm, fun b hb => ?_⟩
  have hends : (Scalar.digit? radix b).isSome = false :=
    ends_dropWhile (fun b => (Scalar.digit? radix b).isSome) run b hb
  rw [IsDigit, hends]
  exact Bool.false_ne_true

theorem numeral_of_overflow (h : 65535 < value radix (leading radix run)) :
    Numeral radix sign run (.fault (.scalarOverflow (sign ++ Ascii.text run))) := by
  obtain ⟨more, hrun, -⟩ := exists_leading radix run
  have hnumeral : Numeral radix sign (leading radix run ++ more)
      (.fault (.scalarOverflow (sign ++ Ascii.text (leading radix run ++ more)))) :=
    .overflow (leading_digits radix run) h
  rwa [← hrun] at hnumeral

theorem numeral_of_value (h : value radix (leading radix run) ≤ 65535)
    (hall : leading radix run = run) (hne : run ≠ []) :
    ∃ v : UInt16, v.toNat = value radix (leading radix run) ∧
      Numeral radix sign run (.item (.scalar v)) := by
  have hlt : value radix run < 0x10000 := by
    rw [hall] at h
    exact Nat.lt_succ_of_le h
  refine ⟨UInt16.ofNat (value radix run), ?_, .value hne ?_ hlt⟩
  · rw [hall, UInt16.toNat_ofNat_of_lt' hlt]
  · rw [← hall]
    exact leading_digits radix run

theorem numeral_of_invalid (h : value radix (leading radix run) ≤ 65535)
    (hpart : ¬ (leading radix run = run ∧ run ≠ [])) :
    Numeral radix sign run (.fault (.invalidScalar (sign ++ Ascii.text run))) := by
  obtain ⟨more, hrun, hmore⟩ := exists_leading radix run
  cases more with
  | nil =>
    obtain rfl : run = [] := by
      by_contra hne
      exact hpart ⟨by rw [List.append_nil] at hrun; exact hrun.symm, hne⟩
    have htext : sign ++ Ascii.text [] = sign := String.append_empty
    rw [htext]
    exact .empty
  | cons b more =>
    have hnumeral : Numeral radix sign (leading radix run ++ b :: more)
        (.fault (.invalidScalar (sign ++ Ascii.text (leading radix run ++ b :: more)))) :=
      .invalid (leading_digits radix run) (Nat.lt_succ_of_le h) (hmore b rfl)
    rwa [← hrun] at hnumeral

/-- Zeros in front count as digits and change nothing. -/
theorem leading_zeros (hr : 0 < radix) (k : Nat) (run : Bytes) :
    leading radix (List.replicate k 0x30 ++ run) = List.replicate k 0x30 ++ leading radix run ∧
      value radix (List.replicate k 0x30 ++ leading radix run) =
        value radix (leading radix run) := by
  have hzero := digit?_zero hr
  refine ⟨leading_append (fun b hb => ?_) run, ?_⟩
  · rw [List.eq_of_mem_replicate hb]
    exact isDigit_iff.2 ⟨0, hzero⟩
  · induction k with
    | zero => rfl
    | succ k ih =>
      rw [List.replicate_succ, List.cons_append, value, valueFrom_cons hzero, Nat.zero_mul]
      exact ih

/-- How scalars start: with a digit, or with the sign of a radix in front of the digits. -/
inductive Led : Nat → Bytes → Bytes → Prop where
  | decimal {b bs} : Ascii.isDigit b = true → Led 10 [] (b :: bs)
  | hexadecimal {bs} : Led 16 [Ascii.dollar] bs
  | binary {bs} : Led 2 [Ascii.percent] bs

theorem Led.radix_le {sign : Bytes} (h : Led radix sign run) : 0 < radix ∧ radix ≤ 16 := by
  cases h <;> decide

/-- A run that starts like a scalar is one lexeme, with the meaning that its digits have. -/
theorem Led.munch {sign rest : Bytes} (h : Led radix sign run)
    (hrun : ∀ c ∈ run, Ascii.isAlphanumeric c = true) (hrest : Ends Ascii.isAlphanumeric rest)
    {sense : Sense} (hn : Numeral radix (Ascii.text sign) run sense) :
    Munch (sign ++ run) rest sense := by
  cases h with
  | decimal hb => exact .decimal hb (List.forall_mem_cons.1 hrun).2 hrest hn
  | hexadecimal => exact .hexadecimal hrun hrest hn
  | binary => exact .binary hrun hrest hn

end Grammar

/-! ## Scalars of lexers -/

namespace Lexer

open Grammar (Ends Led Munch leading value)
open Position (past)

variable {ρ : Type} [Reader ρ] {r : ρ} {path : Path} {before sign run rest : Bytes} {radix : Nat}
  {ts : List Token}

end Lexer

end Asm6502
