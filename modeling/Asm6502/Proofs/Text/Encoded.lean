import Asm6502.Proofs.Classes

/-!
# Encoded texts

Bytes that encode a text (`IsText`) decode to that text and no other (`decodeLossy_encodeList`).
Only ASCII characters have ASCII bytes, so that a text can be cut at any ASCII byte
(`split_at_ascii`).
-/

namespace Asm6502.Utf8

variable {c : Char} {cs ds : List Char} {b t : UInt8} {bs ts rest : Bytes}

/-! ## Leading bytes -/

deriving instance DecidableEq for Lead

theorem Lead.of?_two : 0xc2 ≤ b.toNat → b.toNat ≤ 0xdf →
    Lead.of? b = some { tails := 1, bits := b.toNat - 0xc0 } :=
  forall_byte (by decide +kernel) b

theorem Lead.of?_three : 0xe0 ≤ b.toNat → b.toNat ≤ 0xef →
    Lead.of? b = some {
      tails := 2
      low := if b.toNat = 0xe0 then 0xa0 else 0x80
      high := if b.toNat = 0xed then 0x9f else 0xbf
      bits := b.toNat - 0xe0 } :=
  forall_byte (by decide +kernel) b

theorem Lead.of?_four : 0xf0 ≤ b.toNat → b.toNat ≤ 0xf4 →
    Lead.of? b = some {
      tails := 3
      low := if b.toNat = 0xf0 then 0x90 else 0x80
      high := if b.toNat = 0xf4 then 0x8f else 0xbf
      bits := b.toNat - 0xf0 } :=
  forall_byte (by decide +kernel) b

/-! ## One character -/

theorem isAscii_iff : Ascii.isAscii b = true ↔ b.toNat < 0x80 := by
  simp [Ascii.isAscii, UInt8.lt_iff_toNat_lt]

theorem isAscii_eq_false_iff : Ascii.isAscii b = false ↔ 0x80 ≤ b.toNat := by
  rw [← Bool.not_eq_true, isAscii_iff, Nat.not_lt]

theorem isTail_iff : isTail b = true ↔ 0x80 ≤ b.toNat ∧ b.toNat ≤ 0xbf := by
  simp [isTail, UInt8.le_iff_toNat_le]

theorem takeTails_append (hts : ∀ u ∈ ts, isTail u = true) :
    takeTails 0x80 0xbf ts.length (ts ++ rest) = (ts, rest) := by
  induction ts with
  | nil => rfl
  | cons u ts ih =>
    obtain ⟨hu, hts⟩ := List.forall_mem_cons.1 hts
    have hrange : 0x80 ≤ u ∧ u ≤ 0xbf := by simpa [isTail] using hu
    simp [takeTails, hrange, ih hts]

/-- A leading byte with all its tails is one character. -/
theorem takePiece_lead {lead : Lead} (hlead : Lead.of? b = some lead)
    (hb : 0x80 ≤ b.toNat) (hlow : lead.low.toNat ≤ t.toNat) (hhigh : t.toNat ≤ lead.high.toNat)
    (hts : ∀ u ∈ ts, isTail u = true) (hlength : (t :: ts).length = lead.tails) :
    takePiece b (t :: ts ++ rest) =
      (some (Char.ofNat ((t :: ts).foldl (fun n u => n * 0x40 + (u.toNat - 0x80)) lead.bits)),
        rest) := by
  have htails : takeTails lead.low lead.high lead.tails (t :: ts ++ rest) = (t :: ts, rest) := by
    have hrange : lead.low ≤ t ∧ t ≤ lead.high :=
      ⟨UInt8.le_iff_toNat_le.2 hlow, UInt8.le_iff_toNat_le.2 hhigh⟩
    simp [← hlength, takeTails, hrange, takeTails_append hts]
  rw [takePiece, isAscii_eq_false_iff.2 hb, if_neg Bool.false_ne_true, hlead]
  simp only [htails]
  exact if_pos hlength

theorem toNat_ofNat_lt {n : Nat} (h : n < 0x100) : (UInt8.ofNat n).toNat = n := by
  rw [UInt8.toNat_ofNat']
  exact Nat.mod_eq_of_lt h

/-- How a character is encoded, by its size. -/
theorem encodeChar_cases (c : Char) :
    (c.toNat < 0x80 ∧ String.utf8EncodeChar c = [UInt8.ofNat c.toNat]) ∨
    (0x80 ≤ c.toNat ∧ c.toNat < 0x800 ∧ ∃ b t, String.utf8EncodeChar c = [b, t] ∧
      b.toNat = c.toNat / 0x40 + 0xc0 ∧ t.toNat = c.toNat % 0x40 + 0x80) ∨
    (0x800 ≤ c.toNat ∧ c.toNat < 0x10000 ∧ ∃ b t u, String.utf8EncodeChar c = [b, t, u] ∧
      b.toNat = c.toNat / 0x1000 + 0xe0 ∧ t.toNat = c.toNat / 0x40 % 0x40 + 0x80 ∧
      u.toNat = c.toNat % 0x40 + 0x80) ∨
    (0x10000 ≤ c.toNat ∧ ∃ b t u v, String.utf8EncodeChar c = [b, t, u, v] ∧
      b.toNat = c.toNat / 0x40000 + 0xf0 ∧ t.toNat = c.toNat / 0x1000 % 0x40 + 0x80 ∧
      u.toNat = c.toNat / 0x40 % 0x40 + 0x80 ∧ v.toNat = c.toNat % 0x40 + 0x80) := by
  have hval : c.val.toNat = c.toNat := rfl
  have hlt : c.toNat < 0x110000 := by
    rcases c.valid with h | h
    · exact Nat.lt_trans h (by decide)
    · exact h.2
  simp only [String.utf8EncodeChar, hval]
  split
  · exact .inl ⟨by omega, rfl⟩
  split
  · refine .inr (.inl ⟨by omega, by omega, _, _, rfl, ?_, ?_⟩) <;>
      rw [toNat_ofNat_lt (by omega)]
    omega
  split
  · refine .inr (.inr (.inl ⟨by omega, by omega, _, _, _, rfl, ?_, ?_, ?_⟩)) <;>
      rw [toNat_ofNat_lt (by omega)]
    omega
  · refine .inr (.inr (.inr ⟨by omega, _, _, _, _, rfl, ?_, ?_, ?_, ?_⟩)) <;>
      rw [toNat_ofNat_lt (by omega)]
    omega

theorem toChar_ofNat (h : c.toNat < 0x80) : Ascii.toChar (UInt8.ofNat c.toNat) = c := by
  apply Char.toNat_inj.1
  show (UInt8.ofNat c.toNat).toUInt32.toNat = c.toNat
  rw [UInt8.toNat_toUInt32, toNat_ofNat_lt (by omega)]

/-- The piece at the start of an encoded character is that character. -/
theorem takePiece_encodeChar (c : Char) (rest : Bytes) :
    ∃ b tail, String.utf8EncodeChar c = b :: tail ∧
      takePiece b (tail ++ rest) = (some c, rest) := by
  have hvalid : c.toNat < 0xd800 ∨ 0xdfff < c.toNat ∧ c.toNat < 0x110000 := c.valid
  have hc : ∀ n, n = c.toNat → Char.ofNat n = c := by
    rintro _ rfl
    exact Char.ofNat_toNat c
  rcases encodeChar_cases c with ⟨h, hcode⟩ | ⟨hlow, hhigh, b, t, hcode, hb, ht⟩ |
    ⟨hlow, hhigh, b, t, u, hcode, hb, ht, hu⟩ | ⟨hlow, b, t, u, v, hcode, hb, ht, hu, hv⟩
  · refine ⟨_, _, hcode, ?_⟩
    have hascii : Ascii.isAscii (UInt8.ofNat c.toNat) = true := by
      rw [isAscii_iff, toNat_ofNat_lt (by omega)]
      exact h
    simp [takePiece, hascii, toChar_ofNat h]
  · refine ⟨_, _, hcode, ?_⟩
    rw [takePiece_lead (Lead.of?_two (by omega) (by omega)) (by omega) ?_ ?_ (by simp) rfl]
    · exact congrArg (fun c => (some c, rest)) (hc _ (by simp only [List.foldl]; omega))
    · show 0x80 ≤ _
      omega
    · show _ ≤ 0xbf
      omega
  · refine ⟨_, _, hcode, ?_⟩
    have hu' : isTail u = true := isTail_iff.2 ⟨by omega, by omega⟩
    rw [takePiece_lead (Lead.of?_three (by omega) (by omega)) (by omega) ?_ ?_ (by simpa using hu')
      rfl]
    · exact congrArg (fun c => (some c, rest)) (hc _ (by simp only [List.foldl]; omega))
    · dsimp only
      split
      · show 0xa0 ≤ _
        omega
      · show 0x80 ≤ _
        omega
    · dsimp only
      split
      · show _ ≤ 0x9f
        omega
      · show _ ≤ 0xbf
        omega
  · refine ⟨_, _, hcode, ?_⟩
    have hu' : isTail u = true := isTail_iff.2 ⟨by omega, by omega⟩
    have hv' : isTail v = true := isTail_iff.2 ⟨by omega, by omega⟩
    rw [takePiece_lead (Lead.of?_four (by omega) (by omega)) (by omega) ?_ ?_
      (by simpa using ⟨hu', hv'⟩) rfl]
    · exact congrArg (fun c => (some c, rest)) (hc _ (by simp only [List.foldl]; omega))
    · dsimp only
      split
      · show 0x90 ≤ _
        omega
      · show 0x80 ≤ _
        omega
    · dsimp only
      split
      · show _ ≤ 0x8f
        omega
      · show _ ≤ 0xbf
        omega

/-- The bytes of an ASCII character are one ASCII byte, those of any other are none. -/
theorem encodeChar_ascii (c : Char) :
    (∃ b, Ascii.isAscii b = true ∧ c = Ascii.toChar b ∧ String.utf8EncodeChar c = [b]) ∨
      ∀ b ∈ String.utf8EncodeChar c, Ascii.isAscii b = false := by
  rcases encodeChar_cases c with ⟨h, hcode⟩ | ⟨-, -, b, t, hcode, hb, ht⟩ |
    ⟨-, -, b, t, u, hcode, hb, ht, hu⟩ | ⟨-, b, t, u, v, hcode, hb, ht, hu, hv⟩
  · refine .inl ⟨_, ?_, (toChar_ofNat h).symm, hcode⟩
    rw [isAscii_iff, toNat_ofNat_lt (by omega)]
    exact h
  all_goals
    right
    simp only [hcode, List.mem_cons, List.not_mem_nil, or_false, forall_eq_or_imp, forall_eq,
      isAscii_eq_false_iff]
    omega

theorem encodeChar_toChar (hb : Ascii.isAscii b = true) :
    String.utf8EncodeChar (Ascii.toChar b) = [b] := by
  have hlt := isAscii_iff.1 hb
  have hval : (Ascii.toChar b).toNat = b.toNat := UInt8.toNat_toUInt32 b
  rcases encodeChar_cases (Ascii.toChar b) with ⟨-, hcode⟩ | ⟨h, -⟩ | ⟨h, -⟩ | ⟨h, -⟩
  · rw [hcode, hval, UInt8.ofNat_toNat]
  all_goals omega

/-! ## Texts -/

/-- The bytes of some characters. -/
def encodeList (cs : List Char) : Bytes := cs.flatMap String.utf8EncodeChar

theorem encodeList_cons (c : Char) (cs : List Char) :
    encodeList (c :: cs) = String.utf8EncodeChar c ++ encodeList cs := rfl

theorem encodeList_append (cs ds : List Char) :
    encodeList (cs ++ ds) = encodeList cs ++ encodeList ds := List.flatMap_append

theorem encode_eq (s : String) : encode s = encodeList s.toList := rfl

theorem pieces_encodeList (cs : List Char) : pieces (encodeList cs) = cs.map some := by
  induction cs with
  | nil => simp [encodeList, pieces]
  | cons c cs ih =>
    obtain ⟨b, tail, hcode, hpiece⟩ := takePiece_encodeChar c (encodeList cs)
    rw [encodeList_cons, hcode, List.cons_append, pieces, hpiece, ih]
    rfl

theorem decodeLossy_encodeList (cs : List Char) :
    decodeLossy (encodeList cs) = String.ofList cs := by
  rw [decodeLossy, pieces_encodeList, List.map_map]
  exact congrArg String.ofList (List.map_id cs)

theorem encodeList_inj (h : encodeList cs = encodeList ds) : cs = ds := by
  have h := congrArg decodeLossy h
  rw [decodeLossy_encodeList, decodeLossy_encodeList] at h
  exact String.ofList_injective h

/-- What does not occur in what stands first occurs behind it. -/
theorem append_eq_append_cons {α : Type} {x : α} {first second left right : List α}
    (hx : x ∉ first) (h : first ++ second = left ++ x :: right) :
    ∃ more, left = first ++ more ∧ second = more ++ x :: right := by
  rcases List.append_eq_append_iff.1 h with ⟨more, rfl, hsecond⟩ | ⟨less, rfl, hless⟩
  · exact ⟨more, rfl, hsecond⟩
  · cases less with
    | nil => exact ⟨[], by simp, hless.symm⟩
    | cons y less =>
      obtain ⟨rfl, -⟩ := List.cons.inj hless
      simp at hx

/-- An ASCII byte in the bytes of some characters is one of the characters. -/
theorem split_at_ascii (hb : Ascii.isAscii b = true) (h : encodeList cs = bs ++ b :: rest) :
    ∃ left right, cs = left ++ Ascii.toChar b :: right ∧ bs = encodeList left ∧
      rest = encodeList right := by
  induction cs generalizing bs with
  | nil => simp [encodeList] at h
  | cons c cs ih =>
    rw [encodeList_cons] at h
    rcases encodeChar_ascii c with ⟨u, -, rfl, hu⟩ | hnone
    · rw [hu] at h
      cases bs with
      | nil =>
        obtain ⟨rfl, rfl⟩ := List.cons.inj h
        exact ⟨[], cs, rfl, rfl, rfl⟩
      | cons v bs =>
        obtain ⟨rfl, hcs⟩ := List.cons.inj h
        obtain ⟨left, right, rfl, rfl, rfl⟩ := ih hcs
        exact ⟨Ascii.toChar u :: left, right, rfl, by rw [encodeList_cons, hu]; rfl, rfl⟩
    · have hmem : b ∉ String.utf8EncodeChar c := fun hm => by simp [hnone b hm] at hb
      obtain ⟨more, rfl, hcs⟩ := append_eq_append_cons hmem h
      obtain ⟨left, right, rfl, rfl, rfl⟩ := ih hcs
      exact ⟨c :: left, right, rfl, rfl, rfl⟩

theorem count_encodeList (hb : Ascii.isAscii b = true) (cs : List Char) :
    (encodeList cs).count b = cs.count (Ascii.toChar b) := by
  induction cs with
  | nil => rfl
  | cons c cs ih =>
    rw [encodeList_cons, List.count_append, ih, List.count_cons, Nat.add_comm]
    congr 1
    rcases encodeChar_ascii c with ⟨u, hu, rfl, hcode⟩ | hnone
    · have hiff : u = b ↔ Ascii.toChar u = Ascii.toChar b := by
        refine ⟨congrArg _, fun h => ?_⟩
        have h := congrArg String.utf8EncodeChar h
        rw [encodeChar_toChar hu, encodeChar_toChar hb] at h
        exact (List.cons.inj h).1
      simp [hcode, List.count_singleton, hiff]
    · have hne : c ≠ Ascii.toChar b := by
        rintro rfl
        simp [encodeChar_toChar hb, hb] at hnone
      have hmem : b ∉ String.utf8EncodeChar c := fun hm => by simp [hnone b hm] at hb
      simp [List.count_eq_zero_of_not_mem hmem, hne]

theorem mem_encodeList (hb : Ascii.isAscii b = true) : b ∈ encodeList cs ↔ Ascii.toChar b ∈ cs := by
  rw [← List.count_pos_iff, count_encodeList hb, List.count_pos_iff]

/-- There are at least as many bytes as characters. -/
theorem length_le_encodeList (cs : List Char) : cs.length ≤ (encodeList cs).length := by
  induction cs with
  | nil => exact Nat.le_refl 0
  | cons c cs ih =>
    have hc : 0 < (String.utf8EncodeChar c).length :=
      List.length_pos_iff.2 String.utf8EncodeChar_ne_nil
    rw [encodeList_cons, List.length_append, List.length_cons]
    omega

theorem length_encodeChar_eq_one : (String.utf8EncodeChar c).length = 1 ↔ c.toNat < 0x80 := by
  rcases encodeChar_cases c with ⟨h, hcode⟩ | ⟨h, -, b, t, hcode, -⟩ | ⟨h, -, b, t, u, hcode, -⟩ |
    ⟨h, b, t, u, v, hcode, -⟩ <;>
    rw [hcode] <;> simp <;> omega

/-- There are as many bytes as characters only if all characters are ASCII. -/
theorem length_encodeList_eq_iff :
    (encodeList cs).length = cs.length ↔ ∀ c ∈ cs, c.toNat < 0x80 := by
  induction cs with
  | nil => simp [encodeList]
  | cons c cs ih =>
    have hc : 0 < (String.utf8EncodeChar c).length :=
      List.length_pos_iff.2 String.utf8EncodeChar_ne_nil
    have hcs := length_le_encodeList cs
    rw [List.forall_mem_cons, ← ih, ← length_encodeChar_eq_one, encodeList_cons,
      List.length_append, List.length_cons]
    omega

/-- Bytes that encode a text. -/
def IsText (bs : Bytes) : Prop := ∃ cs, bs = encodeList cs

theorem isText_encode (s : String) : IsText (encode s) := ⟨s.toList, rfl⟩

theorem isText_nil : IsText [] := ⟨[], rfl⟩

theorem IsText.append (hbs : IsText bs) (hts : IsText ts) : IsText (bs ++ ts) := by
  obtain ⟨cs, rfl⟩ := hbs
  obtain ⟨ds, rfl⟩ := hts
  exact ⟨cs ++ ds, (encodeList_append cs ds).symm⟩

theorem isText_byte (hb : Ascii.isAscii b = true) : IsText [b] :=
  ⟨[Ascii.toChar b], by simp [encodeList, encodeChar_toChar hb]⟩

theorem IsText.ascii (h : ∀ b ∈ bs, Ascii.isAscii b = true) : IsText bs := by
  induction bs with
  | nil => exact isText_nil
  | cons b bs ih =>
    obtain ⟨hb, hbs⟩ := List.forall_mem_cons.1 h
    exact (isText_byte hb).append (ih hbs)

/-- A text can be cut around an ASCII byte. -/
theorem IsText.split (hb : Ascii.isAscii b = true) (h : IsText (bs ++ b :: rest)) :
    IsText bs ∧ IsText rest := by
  obtain ⟨cs, hcs⟩ := h
  obtain ⟨left, right, -, hleft, hright⟩ := split_at_ascii hb hcs.symm
  exact ⟨⟨left, hleft⟩, ⟨right, hright⟩⟩

theorem IsText.tail (hb : Ascii.isAscii b = true) (h : IsText (b :: rest)) : IsText rest := by
  have h : IsText ([] ++ b :: rest) := h
  exact (h.split hb).2

/-- An ASCII byte can be left out of a text. -/
theorem IsText.erase (hb : Ascii.isAscii b = true) (h : IsText (bs ++ b :: rest)) :
    IsText (bs ++ rest) :=
  (h.split hb).1.append (h.split hb).2

/-- A text can be cut behind ASCII bytes. -/
theorem IsText.of_append_ascii (hts : ∀ u ∈ ts, Ascii.isAscii u = true) (h : IsText (ts ++ rest)) :
    IsText rest := by
  induction ts with
  | nil => exact h
  | cons u ts ih =>
    obtain ⟨hu, hts⟩ := List.forall_mem_cons.1 hts
    exact ih hts (h.tail hu)

/-- Bytes of texts that are shown alike are the same. -/
theorem IsText.decodeLossy_inj (hbs : IsText bs) (hts : IsText ts)
    (h : decodeLossy bs = decodeLossy ts) : bs = ts := by
  obtain ⟨cs, rfl⟩ := hbs
  obtain ⟨ds, rfl⟩ := hts
  rw [decodeLossy_encodeList, decodeLossy_encodeList] at h
  rw [String.ofList_injective h]

end Asm6502.Utf8
