import Asm6502.Proofs.Classes
import Asm6502.Proofs.Grammar

/-!
# Numerals

Reading a scalar digit by digit against the number that its digits stand for.

- The number never falls while digits are added (`le_valueFrom`), so the first digit at which it
  leaves 16 bits settles the whole run.
- A run of letters and digits has exactly one meaning in a radix (`Numeral.total`, `Numeral.read`).
- Every number has digits in every radix up to sixteen (`exists_digits`), and any digits that stand
  for a scalar are a numeral of it (`Digits.numeral`), leading zeros and either case included.
-/

namespace Asm6502

namespace Grammar

variable {radix n : Nat} {digits text : Bytes} {b : UInt8}

/-! ## Values -/

theorem isDigit_iff : IsDigit radix b ↔ ∃ d, Scalar.digit? radix b = some d :=
  Option.isSome_iff_exists

theorem valueFrom_cons {d : Nat} (hb : Scalar.digit? radix b = some d) :
    valueFrom radix n (b :: digits) = valueFrom radix (n * radix + d) digits := by
  simp [valueFrom, hb]

theorem valueFrom_append (more : Bytes) : valueFrom radix n (digits ++ more) =
    valueFrom radix (valueFrom radix n digits) more :=
  List.foldl_append

theorem le_valueFrom (hr : 0 < radix) : n ≤ valueFrom radix n digits := by
  induction digits generalizing n with
  | nil => exact Nat.le_refl n
  | cons b digits ih =>
    have hmul : n ≤ n * radix := Nat.le_mul_of_pos_right n hr
    have hstep : n ≤ n * radix + (Scalar.digit? radix b).getD 0 := by omega
    exact Nat.le_trans hstep ih

/-! ## Reading -/

/-- Digits whose number fits are read past. -/
theorem readFrom_digits (hr : 0 < radix) (hd : ∀ b ∈ digits, IsDigit radix b)
    (hv : valueFrom radix n digits < 0x10000) (more : Bytes) :
    Scalar.readFrom radix n (digits ++ more) =
      Scalar.readFrom radix (valueFrom radix n digits) more := by
  induction digits generalizing n with
  | nil => rfl
  | cons b digits ih =>
    obtain ⟨d, hb⟩ := isDigit_iff.1 (hd b List.mem_cons_self)
    rw [valueFrom_cons hb] at hv ⊢
    have hfits : n * radix + d < 0x10000 := Nat.lt_of_le_of_lt (le_valueFrom hr) hv
    rw [List.cons_append, Scalar.readFrom, hb]
    simp only [if_pos hfits]
    exact ih (fun c hc => hd c (List.mem_cons_of_mem b hc)) hv

theorem readFrom_value (hr : 0 < radix) (hd : ∀ b ∈ digits, IsDigit radix b)
    (hv : valueFrom radix n digits < 0x10000) :
    Scalar.readFrom radix n digits = .ok (UInt16.ofNat (valueFrom radix n digits)) := by
  rw [← List.append_nil digits, readFrom_digits hr hd hv, List.append_nil]
  rfl

theorem readFrom_invalid (hr : 0 < radix) (hd : ∀ b ∈ digits, IsDigit radix b)
    (hv : valueFrom radix n digits < 0x10000) (hb : ¬ IsDigit radix b)
    (more : Bytes) : Scalar.readFrom radix n (digits ++ b :: more) = .error .invalid := by
  rw [readFrom_digits hr hd hv, Scalar.readFrom, Option.not_isSome_iff_eq_none.1 hb]

theorem readFrom_overflow (hn : n < 0x10000) (hd : ∀ b ∈ digits, IsDigit radix b)
    (hv : 0x10000 ≤ valueFrom radix n digits) (more : Bytes) :
    Scalar.readFrom radix n (digits ++ more) = .error .overflow := by
  induction digits generalizing n with
  | nil => exact absurd hn (Nat.not_lt.2 hv)
  | cons b digits ih =>
    obtain ⟨d, hb⟩ := isDigit_iff.1 (hd b List.mem_cons_self)
    rw [valueFrom_cons hb] at hv
    rw [List.cons_append, Scalar.readFrom, hb]
    by_cases hfits : n * radix + d < 0x10000
    · simp only [if_pos hfits]
      exact ih hfits (fun c hc => hd c (List.mem_cons_of_mem b hc)) hv
    · simp only [if_neg hfits]

/-! ## Numerals -/

theorem read_of_ne_nil (h : text ≠ []) : Scalar.read radix text = Scalar.readFrom radix 0 text := by
  cases text with
  | nil => exact absurd rfl h
  | cons b text => rfl

/-- What digit by digit reading makes of a numeral. -/
theorem Numeral.read {sign : String} {sense : Sense} (hr : 0 < radix)
    (h : Numeral radix sign text sense) :
    match Scalar.read radix text with
    | .ok v => sense = .item (.scalar v)
    | .error .invalid => sense = .fault (.invalidScalar (sign ++ Ascii.text text))
    | .error .overflow => sense = .fault (.scalarOverflow (sign ++ Ascii.text text)) := by
  cases h with
  | value hne hd hv =>
    rw [read_of_ne_nil hne, readFrom_value hr hd hv]
    rfl
  | empty =>
    show Sense.fault (.invalidScalar sign) = .fault (.invalidScalar (sign ++ Ascii.text []))
    rw [show Ascii.text [] = "" from rfl, String.append_empty]
  | invalid hd hv hb => rw [read_of_ne_nil (by simp), readFrom_invalid hr hd hv hb]
  | overflow hd hv =>
    rename_i digits more
    have hne : digits ≠ [] := by
      rintro rfl
      exact Nat.not_succ_le_zero _ hv
    rw [read_of_ne_nil (by simp [hne]), readFrom_overflow (by decide) hd hv]

/-- Any text is digits that fit, or fits up to a bad digit, or leaves 16 bits before any. -/
theorem digits_cases (radix : Nat) (text : Bytes) (hn : n < 0x10000) :
    (∀ b ∈ text, IsDigit radix b) ∧ valueFrom radix n text < 0x10000 ∨
    (∃ digits b more, text = digits ++ b :: more ∧ (∀ c ∈ digits, IsDigit radix c) ∧
      valueFrom radix n digits < 0x10000 ∧ ¬ IsDigit radix b) ∨
    ∃ digits more, text = digits ++ more ∧ (∀ c ∈ digits, IsDigit radix c) ∧
      0x10000 ≤ valueFrom radix n digits := by
  induction text generalizing n with
  | nil => exact .inl ⟨by simp, hn⟩
  | cons b text ih =>
    by_cases hb : IsDigit radix b
    · obtain ⟨d, hd⟩ := isDigit_iff.1 hb
      have hcons : ∀ {digits : Bytes}, (∀ c ∈ digits, IsDigit radix c) →
          ∀ c ∈ b :: digits, IsDigit radix c := fun h => List.forall_mem_cons.2 ⟨hb, h⟩
      by_cases hfits : n * radix + d < 0x10000
      · obtain ⟨hall, hv⟩ | ⟨digits, c, more, rfl, hall, hv, hc⟩ | ⟨digits, more, rfl, hall, hv⟩ :=
          ih hfits
        · exact .inl ⟨hcons hall, by rwa [valueFrom_cons hd]⟩
        · exact .inr (.inl ⟨b :: digits, c, more, rfl, hcons hall, by rwa [valueFrom_cons hd], hc⟩)
        · exact .inr (.inr ⟨b :: digits, more, rfl, hcons hall, by rwa [valueFrom_cons hd]⟩)
      · refine .inr (.inr ⟨[b], text, rfl, hcons (by simp), ?_⟩)
        rw [valueFrom_cons hd]
        exact Nat.not_lt.1 hfits
    · exact .inr (.inl ⟨[], b, text, rfl, by simp, hn, hb⟩)

theorem Numeral.total (radix : Nat) (sign : String) (text : Bytes) :
    ∃ sense, Numeral radix sign text sense := by
  obtain ⟨hall, hv⟩ | ⟨digits, b, more, rfl, hall, hv, hb⟩ | ⟨digits, more, rfl, hall, hv⟩ :=
    digits_cases (n := 0) radix text (by decide)
  · by_cases hne : text = []
    · subst hne
      exact ⟨_, .empty⟩
    · exact ⟨_, .value hne hall hv⟩
  · exact ⟨_, .invalid hall hv hb⟩
  · exact ⟨_, .overflow hall hv⟩

/-! ## Digits for a number -/

/-- Some digits for a number. -/
def Digits (radix n : Nat) (digits : Bytes) : Prop :=
  digits ≠ [] ∧ (∀ b ∈ digits, IsDigit radix b) ∧ value radix digits = n

/-- Digits for a scalar are the numeral that means it. -/
theorem Digits.numeral {sign : String} {v : UInt16} (h : Digits radix v.toNat digits) :
    Numeral radix sign digits (.item (.scalar v)) := by
  obtain ⟨hne, hall, hv⟩ := h
  have hlt : value radix digits < 0x10000 := hv ▸ v.toNat_lt
  have hof : UInt16.ofNat (value radix digits) = v := by rw [hv]; exact UInt16.ofNat_toNat
  rw [← hof]
  exact .value hne hall hlt

/-- The digit for a number below sixteen. -/
def digit (d : Nat) : UInt8 := if d < 10 then UInt8.ofNat (0x30 + d) else UInt8.ofNat (0x37 + d)

theorem digitValue?_digit : ∀ d < 16, Ascii.digitValue? (digit d) = some d := by decide

theorem digit?_digit {d : Nat} (hd : d < radix) (hr : radix ≤ 16) :
    Scalar.digit? radix (digit d) = some d := by
  rw [Scalar.digit?, digitValue?_digit d (by omega)]
  simpa using hd

/-- Every number has digits in every radix. -/
theorem exists_digits (hr : 2 ≤ radix) (hr' : radix ≤ 16) (n : Nat) :
    ∃ digits, Digits radix n digits := by
  induction n using Nat.strongRecOn with
  | ind n ih =>
    have hlast : ∀ d < radix, IsDigit radix (digit d) := fun d hd =>
      isDigit_iff.2 ⟨d, digit?_digit hd hr'⟩
    by_cases hn : n < radix
    · refine ⟨[digit n], by simp, by simpa using hlast n hn, ?_⟩
      rw [value, valueFrom_cons (digit?_digit hn hr')]
      simp [valueFrom]
    · have hmod : n % radix < radix := Nat.mod_lt n (by omega)
      obtain ⟨digits, -, hall, hv⟩ := ih (n / radix) (Nat.div_lt_self (by omega) hr)
      refine ⟨digits ++ [digit (n % radix)], by simp, ?_, ?_⟩
      · intro b hb
        rcases List.mem_append.1 hb with hb | hb
        · exact hall b hb
        · rw [List.mem_singleton.1 hb]
          exact hlast _ hmod
      · rw [value, valueFrom_append, valueFrom_cons (digit?_digit hmod hr'),
          show valueFrom radix 0 digits = n / radix from hv]
        exact Nat.div_add_mod' n radix

theorem digit?_zero (hr : 0 < radix) : Scalar.digit? radix 0x30 = some 0 := by
  have hvalue : Ascii.digitValue? 0x30 = some 0 := by decide
  simpa [Scalar.digit?, hvalue] using hr

end Grammar

end Asm6502
