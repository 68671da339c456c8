import Asm6502.Keyword

/-!
# Spellings of keywords

Each table gives every keyword one spelling and no spelling to two keywords, so that looking up
is the inverse of spelling (`Keyword.lookup?_eq_some`). What the spellings of a table look like is
said once for each table.
-/

namespace Asm6502

namespace Keyword

/-- The bytes of a keyword. -/
def spelling {κ : Type} [DecidableEq κ] [Keyword κ] (k : κ) : Bytes := Ascii.bytes (name k)

/-- A table that names every keyword, and each entry of which is found by its keyword and by its
spelling. -/
class Exact (κ : Type) [DecidableEq κ] [Keyword κ] : Prop where
  complete : ∀ k : κ, k ∈ (table (κ := κ)).map (·.1)
  name_eq : ∀ entry ∈ table (κ := κ), name entry.1 = entry.2
  lookup?_eq : ∀ entry ∈ table (κ := κ), lookup? (Ascii.bytes entry.2) = some entry.1

variable {κ : Type} [DecidableEq κ] [Keyword κ] [Exact κ] {k : κ} {text : Bytes}

theorem lookup?_spelling (k : κ) : lookup? (spelling k) = some k := by
  obtain ⟨entry, hm, rfl⟩ := List.mem_map.1 (Exact.complete k)
  rw [spelling, Exact.name_eq entry hm]
  exact Exact.lookup?_eq entry hm

theorem lookup?_eq_some : lookup? text = some k ↔ text = spelling k := by
  constructor
  · intro h
    obtain ⟨entry, hf, rfl⟩ := Option.map_eq_some_iff.1 h
    have hm := List.mem_of_find?_eq_some hf
    have ht := List.find?_some hf
    rw [spelling, Exact.name_eq entry hm]
    exact (of_decide_eq_true ht).symm
  · rintro rfl
    exact lookup?_spelling k

theorem lookup?_eq_none : (lookup? text : Option κ) = none ↔ ∀ k : κ, text ≠ spelling k := by
  rw [Option.eq_none_iff_forall_ne_some]
  exact forall_congr' fun k => not_congr lookup?_eq_some

end Keyword

instance : Keyword.Exact Directive where
  complete k := by cases k <;> decide
  name_eq := by decide
  lookup?_eq := by decide

instance : Keyword.Exact Mnemonic where
  complete k := by cases k <;> decide
  name_eq := by decide +kernel
  lookup?_eq := by decide +kernel

instance : Keyword.Exact Register where
  complete k := by cases k <;> decide
  name_eq := by decide
  lookup?_eq := by decide

instance : Keyword.Exact Punctuation where
  complete k := by cases k <;> decide
  name_eq := by decide
  lookup?_eq := by decide

/-! ## What spellings look like -/

open Keyword (spelling)

theorem Directive.letters (k : Directive) : ∀ b ∈ spelling k, Ascii.isLetter b = true := by
  cases k <;> decide +kernel

theorem Mnemonic.letters (k : Mnemonic) :
    (spelling k).length = 3 ∧ ∀ b ∈ spelling k, Ascii.isLetter b = true := by
  cases k <;> decide +kernel

theorem Register.letter (k : Register) : ∃ b, spelling k = [b] ∧ Ascii.isLetter b = true := by
  cases k
  · exact ⟨0x41, by decide⟩
  · exact ⟨0x58, by decide⟩
  · exact ⟨0x59, by decide⟩

theorem Mnemonic.spelling_ne_register (k : Mnemonic) (j : Register) : spelling k ≠ spelling j := by
  intro h
  obtain ⟨b, hj, -⟩ := j.letter
  have hlen := k.letters.1
  rw [h, hj] at hlen
  cases hlen

end Asm6502
