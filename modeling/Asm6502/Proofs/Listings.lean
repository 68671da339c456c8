import Asm6502.Proofs.Cursor
import Asm6502.Proofs.Texts

/-!
# Listings say what the tokens are

The listing of a lexer has one line for each token from the cursor on (`Lexer.dump_received`). A
line shows a text without escaping anything in it, and still there is one way only to read it: its
kind and number come first, its source and its own number last, and the text is all that is left in
between (`Token.Listed.listing_inj`). As no line has a line feed in it, there is one way only to
read a listing too (`Lexer.listing_iff`).
-/

namespace Asm6502

open Utf8 (IsText encodeList)

/-! ## Taking apart what is written -/

section

variable {α : Type} {x : α} {a b s t : List α}

theorem append_cons_inj (ha : x ∉ a) (hb : x ∉ b) (h : a ++ x :: s = b ++ x :: t) :
    a = b ∧ s = t := by
  obtain ⟨more, rfl, hmore⟩ := Utf8.append_eq_append_cons ha h
  cases more with
  | nil => exact ⟨(List.append_nil a).symm, (List.cons.inj hmore).2⟩
  | cons y more =>
    obtain ⟨rfl, -⟩ := List.cons.inj hmore
    simp at hb

theorem append_cons_inj_right (hs : x ∉ s) (ht : x ∉ t) (h : a ++ x :: s = b ++ x :: t) :
    a = b ∧ s = t := by
  have hreverse := congrArg List.reverse h
  simp only [List.reverse_append, List.reverse_cons, List.append_assoc,
    List.singleton_append] at hreverse
  obtain ⟨hst, hab⟩ := append_cons_inj (by simpa using hs) (by simpa using ht) hreverse
  exact ⟨List.reverse_inj.1 hab, List.reverse_inj.1 hst⟩

/-- Lines that are written one after another, each of them ended by `x`. -/
theorem flatMap_lines_inj {β : Type} {line : β → List α} {us vs : List β}
    (hline : ∀ u ∈ us, x ∉ line u) (hline' : ∀ v ∈ vs, x ∉ line v)
    (hinj : ∀ u ∈ us, ∀ v ∈ vs, line u = line v → u = v)
    (h : us.flatMap (fun u => line u ++ [x]) = vs.flatMap (fun v => line v ++ [x])) : us = vs := by
  induction us generalizing vs with
  | nil => cases vs with
    | nil => rfl
    | cons v vs => simp at h
  | cons u us ih =>
    cases vs with
    | nil => simp at h
    | cons v vs =>
      obtain ⟨hu, hus⟩ := List.forall_mem_cons.1 hline
      obtain ⟨hv, hvs⟩ := List.forall_mem_cons.1 hline'
      simp only [List.flatMap_cons, List.append_assoc, List.singleton_append] at h
      obtain ⟨hfirst, hrest⟩ := append_cons_inj hu hv h
      obtain rfl := hinj u List.mem_cons_self v List.mem_cons_self hfirst
      have hinj' : ∀ w ∈ us, ∀ v ∈ vs, line w = line v → w = v := fun w hw v hv =>
        hinj w (List.mem_cons_of_mem _ hw) v (List.mem_cons_of_mem _ hv)
      rw [ih hus hvs hinj' hrest]

end

theorem not_mem_decimal {c : Char} (hc : c.isDigit = false) (n : Nat) : c ∉ Nat.toDigits 10 n := by
  intro h
  simp [Nat.isDigit_of_mem_toDigits (by decide) (by decide) h] at hc

theorem decimal_inj {m n : Nat} (h : Nat.toDigits 10 m = Nat.toDigits 10 n) : m = n := by
  have hvalue (k : Nat) : Nat.ofDigitChars 10 (Nat.toDigits 10 k) 0 = k :=
    Nat.ofDigitChars_toDigits (by decide) (by decide)
  rw [← hvalue m, h, hvalue n]

/-- A number behind its sign and before a closing parenthesis. -/
theorem append_number_inj {a b : List Char} {c : Char} {m n : Nat} (hc : c.isDigit = false)
    (hne : c ≠ ')')
    (h : a ++ c :: (Nat.toDigits 10 m ++ [')']) = b ++ c :: (Nat.toDigits 10 n ++ [')'])) :
    a = b ∧ m = n := by
  have hnot : ∀ k, c ∉ Nat.toDigits 10 k ++ [')'] := by simp [not_mem_decimal hc, hne]
  obtain ⟨hab, hmn⟩ := append_cons_inj_right (hnot m) (hnot n) h
  exact ⟨hab, decimal_inj (List.append_cancel_right hmn)⟩

theorem mem_hexadecimal {n : Nat} {c : Char} (h : c ∈ Nat.toDigits 16 n) :
    ∃ d, d < 16 ∧ c = Nat.digitChar d := by
  induction n using Nat.strongRecOn with
  | ind n ih =>
    rw [Nat.toDigits_eq_if (by decide)] at h
    split at h
    · rename_i hn
      exact ⟨n, hn, by simpa using h⟩
    · rcases List.mem_append.1 h with h | h
      · exact ih (n / 16) (by omega) h
      · exact ⟨n % 16, Nat.mod_lt _ (by decide), by simpa using h⟩

theorem Ascii.lineFeed_not_mem_hex (width n : Nat) : '\n' ∉ (hex width n).toList := by
  have hdigit : ∀ d < 16, '\n' ≠ (Nat.digitChar d).toUpper := by decide
  simp only [hex, String.toList_ofList, List.mem_append, List.mem_replicate, List.mem_map, not_or]
  refine ⟨by simp, ?_⟩
  rintro ⟨c, hc, hupper⟩
  obtain ⟨d, hd, rfl⟩ := mem_hexadecimal hc
  exact hdigit d hd hupper.symm

/-! ## What the tokens of a text show -/

/-- The kinds of tokens whose payload is a text. -/
def TokenKind.carriesText : TokenKind → Bool
  | identifier | label | literal => true
  | _ => false

/-- What a token of a kind can carry if its source is a text. -/
inductive Payload.Fits : TokenKind → Payload → Prop where
  | text {kind bytes} : kind.carriesText = true → IsText bytes → Ascii.lineFeed ∉ bytes →
      Fits kind (.text bytes)
  | scalar {value} : Fits .scalar (.scalar value)
  | nothing {kind} : kind.carriesText = false → kind ≠ .scalar → Fits kind (.scalar 0)

/-- The final token, or one with a place in the source `path` and a payload that fits. -/
def Token.Listed (path : Path) (t : Token) : Prop :=
  t = .finish ∨ t.kind ≠ .finish ∧ t.source = some path ∧ t.payload.Fits t.kind

theorem Item.listed {i : Item} (hi : i.WellFormed) (hlegible : i.Legible) (path : Path)
    (line : UInt32) : (i.token path line).Listed path := by
  right
  cases i with
  | directive k | instruction k | operand k | symbol k =>
    exact ⟨nofun, rfl, .nothing rfl nofun⟩
  | identifier name => exact ⟨nofun, rfl, .text rfl hlegible hi.1.lineFeed_not_mem⟩
  | label name => exact ⟨nofun, rfl, .text rfl hlegible hi.lineFeed_not_mem⟩
  | literal text => exact ⟨nofun, rfl, .text rfl hlegible hi⟩
  | scalar value => exact ⟨nofun, rfl, .scalar⟩

/-! ## Lines of listings -/

theorem TokenKind.name_inj {k k' : TokenKind} (h : k.name = k'.name) : k = k' := by
  revert h
  cases k <;> cases k' <;> decide

theorem TokenKind.colon_not_mem_name (k : TokenKind) : ':' ∉ k.name.toList := by
  cases k <;> decide

theorem TokenKind.lineFeed_not_mem_name (k : TokenKind) : '\n' ∉ k.name.toList := by
  cases k <;> decide

namespace Token

variable {t u : Token} {path : Path} {bytes : Bytes} {value : UInt16}

theorem toList_listing (t : Token) : t.listing.toList =
    '[' :: (t.kind.name.toList ++ ':' :: (Nat.toDigits 10 t.number ++ ']' ::
      match t.source with
      | none => " END".toList
      | some source => t.payloadText.toList ++ (' ' :: '(' :: source.text.toList) ++
          '@' :: (Nat.toDigits 10 t.line.toNat ++ [')']))) := by
  cases h : t.source <;>
    simp only [listing, h, String.toList_append, List.append_assoc, List.cons_append,
      ← Nat.toList_repr] <;> rfl

theorem toList_payloadText_text (h : t.payload = .text bytes) :
    t.payloadText.toList = ' ' :: '"' :: ((Utf8.decodeLossy bytes).toList ++ ['"']) := by
  simp only [payloadText, h, String.toList_append, List.append_assoc]
  rfl

theorem toList_payloadText_scalar (hkind : t.kind = .scalar) (h : t.payload = .scalar value) :
    t.payloadText.toList = ' ' :: ((Ascii.hex 4 value.toNat).toList ++ [' ']) ++
      '(' :: (Nat.toDigits 10 value.toNat ++ [')']) := by
  simp only [payloadText, h, hkind, if_true, String.toList_append, List.append_assoc,
    List.cons_append, ← Nat.toList_repr]
  rfl

/-- What a token carries can be read from what is shown of it. -/
theorem payload_eq_of_payloadText_eq (ht : t.payload.Fits t.kind) (hu : u.payload.Fits u.kind)
    (hkind : t.kind = u.kind) (h : t.payloadText = u.payloadText) : t.payload = u.payload := by
  have h := congrArg String.toList h
  generalize hp : t.payload = p at ht ⊢
  generalize hq : u.payload = q at hu ⊢
  generalize hk : t.kind = k at ht hkind
  rw [← hkind] at hu
  cases ht with
  | @text _ bytes hkind ht _ =>
    cases hu with
    | @text _ bytes' _ hu _ =>
      rw [toList_payloadText_text hp, toList_payloadText_text hq] at h
      have h := List.append_cancel_right (List.cons.inj (List.cons.inj h).2).2
      rw [ht.decodeLossy_inj hu (String.toList_inj.1 h)]
    | scalar => cases hkind
    | nothing hnot _ => simp [hnot] at hkind
  | @scalar value =>
    cases hu with
    | text hkind _ _ => cases hkind
    | @scalar value' =>
      rw [toList_payloadText_scalar hk hp, toList_payloadText_scalar hkind.symm hq] at h
      rw [UInt16.toNat_inj.1 (append_number_inj (by decide) (by decide) h).2]
    | nothing _ hne => exact absurd rfl hne
  | nothing hnot hne =>
    cases hu with
    | text hkind _ _ => simp [hnot] at hkind
    | scalar => exact absurd rfl hne
    | nothing _ _ => rfl

/-- The line of a token is the line of no other. -/
theorem Listed.listing_inj (ht : t.Listed path) (hu : u.Listed path) (h : t.listing = u.listing) :
    t = u := by
  have h := congrArg String.toList h
  rw [toList_listing, toList_listing] at h
  obtain ⟨hkind, h⟩ := append_cons_inj (TokenKind.colon_not_mem_name _)
    (TokenKind.colon_not_mem_name _) (List.cons.inj h).2
  obtain ⟨hnumber, h⟩ :=
    append_cons_inj (not_mem_decimal (by decide) _) (not_mem_decimal (by decide) _) h
  have hkind := TokenKind.name_inj (String.toList_inj.1 hkind)
  rcases ht with rfl | ⟨ht, htsource, htpayload⟩
  · rcases hu with rfl | ⟨hu, -⟩
    · rfl
    · exact absurd hkind.symm hu
  · rcases hu with rfl | ⟨-, husource, hupayload⟩
    · exact absurd hkind ht
    · rw [htsource, husource] at h
      obtain ⟨htext, hline⟩ := append_number_inj (by decide) (by decide) h
      have hpayload := payload_eq_of_payloadText_eq htpayload hupayload hkind
        (String.toList_inj.1 (List.append_cancel_right htext))
      cases t
      cases u
      rw [Token.mk.injEq]
      exact ⟨hkind, decimal_inj hnumber, htsource.trans husource.symm, UInt32.toNat_inj.1 hline,
        hpayload⟩

theorem lineFeed_not_mem_payloadText (ht : t.payload.Fits t.kind) :
    '\n' ∉ t.payloadText.toList := by
  generalize hp : t.payload = p at ht
  generalize hk : t.kind = k at ht
  cases ht with
  | text _ htext hlf =>
    obtain ⟨cs, rfl⟩ := htext
    have hcs : '\n' ∉ cs := fun h => hlf ((Utf8.mem_encodeList (b := Ascii.lineFeed) rfl).2 h)
    rw [toList_payloadText_text hp, Utf8.decodeLossy_encodeList, String.toList_ofList]
    simpa using hcs
  | scalar =>
    rw [toList_payloadText_scalar hk hp]
    simp [Ascii.lineFeed_not_mem_hex, not_mem_decimal]
  | nothing _ hne => simp [payloadText, hp, hk, hne]

/-- Nothing that is listed goes over the end of its line. -/
theorem Listed.lineFeed_not_mem (ht : t.Listed path) (hpath : '\n' ∉ path.text.toList) :
    '\n' ∉ t.listing.toList := by
  have hnumber := not_mem_decimal (c := '\n') (by decide)
  have hname := TokenKind.lineFeed_not_mem_name t.kind
  rw [toList_listing]
  rcases ht with rfl | ⟨-, hsource, hpayload⟩
  · decide
  · have hpayload := lineFeed_not_mem_payloadText hpayload
    rw [hsource]
    simp_all

theorem listingBytes_eq (t : Token) : t.listingBytes = encodeList (t.listing.toList ++ ['\n']) := by
  rw [listingBytes, Utf8.encode_eq, String.toList_append]
  rfl

/-- The lines of a listing, one after another, say what the tokens are. -/
theorem eq_of_listing_eq {ts us : List Token} (hpath : '\n' ∉ path.text.toList)
    (hts : ∀ t ∈ ts, t.Listed path) (hus : ∀ u ∈ us, u.Listed path)
    (h : ts.flatMap listingBytes = us.flatMap listingBytes) : ts = us := by
  have hbytes (ts : List Token) : ts.flatMap listingBytes =
      encodeList (ts.flatMap fun t => t.listing.toList ++ ['\n']) := by
    simp only [encodeList, List.flatMap_assoc]
    exact List.flatMap_congr fun t _ => listingBytes_eq t
  rw [hbytes, hbytes] at h
  refine flatMap_lines_inj (fun t ht => (hts t ht).lineFeed_not_mem hpath)
    (fun u hu => (hus u hu).lineFeed_not_mem hpath) (fun t ht u hu htu => ?_)
    (Utf8.encodeList_inj h)
  exact (hts t ht).listing_inj (hus u hu) (String.toList_inj.1 htu)

end Token

/-! ## Listings of lexers -/

/-- An empty sink that takes all that it is offered, in whatever parts. -/
structure Sink.Fresh (w : Sink) : Prop where
  received : w.received = #[]
  room : w.room = none

theorem Sink.offer_of_no_limit {w : Sink} (hw : w.room = none) (bytes : Bytes) :
    ∃ n w', w.offer bytes = (.ok n, w') ∧ w'.room = none ∧ w'.flushFault = w.flushFault ∧
      w'.received.toList = w.received.toList ++ bytes.take n := by
  rw [offer, if_neg (by simp [hw])]
  exact ⟨_, _, rfl, by simp [hw], rfl, by simp⟩

theorem Sink.write_of_no_limit {w : Sink} (hw : w.room = none) (bytes : Bytes) :
    ∃ w', w.write bytes = (.ok (), w') ∧ w'.room = none ∧ w'.flushFault = w.flushFault ∧
      w'.received.toList = w.received.toList ++ bytes := by
  fun_induction Sink.write bytes w with
  | case1 w => exact ⟨w, rfl, hw, rfl, by simp⟩
  | case2 bytes w hb reason w' h =>
    obtain ⟨n, w'', hoffer, -⟩ := offer_of_no_limit hw bytes
    simp [h] at hoffer
  | case3 bytes w hb n w' h ih =>
    obtain ⟨n', w'', hoffer, hroom, hfault, hreceived⟩ := offer_of_no_limit hw bytes
    rw [h] at hoffer
    obtain ⟨hn, rfl⟩ := Prod.mk.inj hoffer
    obtain rfl := Except.ok.inj hn
    obtain ⟨last, hwrite, hlast, hkept, htaken⟩ := ih hroom
    refine ⟨last, hwrite, hlast, hkept.trans hfault, ?_⟩
    rw [htaken, hreceived, List.append_assoc, List.take_append_drop]

theorem Sink.written {w w' : Sink} {r : Except String Unit} {bytes : Bytes} (hw : w.room = none)
    (h : Writer.write bytes w = (r, w')) : r = .ok () ∧ w'.room = none ∧
      w'.flushFault = w.flushFault ∧ w'.received.toList = w.received.toList ++ bytes := by
  obtain ⟨w'', hok, hrest⟩ := write_of_no_limit hw bytes
  obtain ⟨rfl, rfl⟩ := Prod.mk.inj (h.symm.trans hok)
  exact ⟨rfl, hrest⟩

theorem Sink.flush_snd (w : Sink) : w.flush.2 = w := by
  unfold flush
  split <;> rfl

namespace Lexer

variable {ρ : Type}

theorem walk_of_get_error {l : Lexer ρ} {e : Error} (h : l.get = .error e) : l.walk = [] := by
  rw [walk, h]

theorem walk_of_next_ok {l l' : Lexer ρ} {t : Token} (h : l.get = .ok t)
    (hn : l.next = (.ok (), l')) : l.walk = t :: l'.walk := by
  rw [walk, h]
  simp only
  split
  · rename_i l'' hn'
    obtain ⟨-, rfl⟩ := Prod.mk.inj (hn.symm.trans hn')
    rfl
  · rename_i hn'
    simp [hn] at hn'

theorem walk_of_next_error {l l' : Lexer ρ} {t : Token} {e : Error} (h : l.get = .ok t)
    (hn : l.next = (.error e, l')) : l.walk = [t] := by
  rw [walk, h]
  simp only
  split
  · rename_i hn'
    simp [hn] at hn'
  · rfl

/-- A sink without a limit gets the lines of all tokens from the cursor on. -/
theorem dump_received [Reader ρ] (l : Lexer ρ) {w : Sink} (hw : w.room = none) :
    (l.dump w).2.received.toList = w.received.toList ++ l.walk.flatMap Token.listingBytes := by
  have hflushed {w w' : Sink} {r : Except String Unit} (h : Writer.flush w = (r, w')) :
      w' = w := by
    have hsame : (Writer.flush w).2 = w := w.flush_snd
    rwa [h] at hsame
  fun_induction dump l w with
  | case1 l w e hget => simp [walk_of_get_error hget]
  | case2 l w t hget reason w' hwrite => cases (Sink.written hw hwrite).1
  | case3 l w t hget w' hwrite l' hn ih =>
    obtain ⟨-, hroom, -, hreceived⟩ := Sink.written hw hwrite
    rw [ih hroom, hreceived, walk_of_next_ok hget hn]
    simp
  | case4 l w t hget w' hwrite e l' hn _ w'' hflush =>
    obtain ⟨-, -, -, hreceived⟩ := Sink.written hw hwrite
    rw [hflushed hflush, hreceived, walk_of_next_error hget hn]
    simp
  | case5 l w t hget w' hwrite e l' hn _ reason w'' hflush =>
    obtain ⟨-, -, -, hreceived⟩ := Sink.written hw hwrite
    rw [hflushed hflush, hreceived, walk_of_next_error hget hn]
    simp
  | case6 l w t hget w' hwrite e l' hn _ =>
    obtain ⟨-, -, -, hreceived⟩ := Sink.written hw hwrite
    rw [hreceived, walk_of_next_error hget hn]
    simp

variable [Reader ρ] {σ : Type} [Reader σ] {path : Path} {text : String} {l : Lexer ρ}

theorem listed_of_text {r : ρ} (hr : Reader.Holds r path (Utf8.encode text))
    (hl : (ofReader r).1 = .ok l) : ∀ t ∈ l.tokens.toList, t.Listed path := by
  have hne : Utf8.encode text ≠ [] := by
    intro hempty
    rw [hempty] at hr
    simp [ofReader_of_empty hr] at hl
  have houtcome := ofReader_outcome hr hne
  rw [hl, Scan.outcome] at houtcome
  have hderives : Grammar.Derives path [] (Utf8.encode text) _ := Grammar.derives_iff.2 rfl
  split at houtcome
  · have htokens : l.tokens.toList = _ := Except.ok.inj houtcome
    rw [htokens]
    intro t ht
    rcases List.mem_append.1 ht with ht | ht
    · obtain ⟨i, line, rfl, hi, hlegible⟩ := hderives.texts (Utf8.isText_encode text) t ht
      exact i.listed hi hlegible path line
    · exact .inl (List.mem_singleton.1 ht)
  · cases houtcome

/-- A lexer of a text, on its first token. It may have been used before, but it is not closed. -/
def OnFirst (path : Path) (text : String) (l : Lexer ρ) : Prop :=
  ∃ (r : ρ) (made : Lexer ρ) (us : List (Use Sink)), Reader.Holds r path (Utf8.encode text) ∧
    (ofReader r).1 = .ok made ∧ .close ∉ us ∧ l = made.uses us ∧ l.index = 0

theorem OnFirst.of_made {r : ρ} (hr : Reader.Holds r path (Utf8.encode text))
    (hl : (ofReader r).1 = .ok l) : l.OnFirst path text := by
  refine ⟨r, l, [], hr, hl, by simp, rfl, ?_⟩
  obtain ⟨st, ts, rfl⟩ := ofReader_eq_ok hl
  rfl

theorem OnFirst.listed (hl : l.OnFirst path text) :
    l.walk = l.tokens.toList ∧ ∀ t ∈ l.tokens.toList, t.Listed path := by
  obtain ⟨r, made, us, hr, hmade, hopen, rfl, hindex⟩ := hl
  obtain ⟨s, ts, hstands, -⟩ := ofReader_stands hmade
  have hstands := (hstands.uses us).1 hopen
  refine ⟨?_, hstands.tokens ▸ listed_of_text hr hmade⟩
  rw [hstands.walk, hindex, hstands.tokens, hstands.holds.toList_eq, List.drop_zero]

theorem OnFirst.received (hl : l.OnFirst path text) {w : Sink} (hw : w.Fresh) :
    (l.dump w).2.received.toList = l.tokens.toList.flatMap Token.listingBytes := by
  rw [dump_received l hw.room, hl.listed.1, hw.received]
  simp

/-- Listings of two texts are the same only if their tokens are: of every token its line says all
that there is to say, and it has that one line. -/
theorem listing_iff {a b : String} {m : Lexer σ} {v w : Sink} (hpath : '\n' ∉ path.text.toList)
    (hl : l.OnFirst path a) (hm : m.OnFirst path b) (hv : v.Fresh) (hw : w.Fresh) :
    ((l.dump v).2.received = (m.dump w).2.received ↔ l.tokens.toList = m.tokens.toList) ∧
      (l.dump v).2.received.toList = l.tokens.toList.flatMap Token.listingBytes ∧
      ∀ t ∈ l.tokens.toList, ∃ line, Ascii.lineFeed ∉ line ∧
        t.listingBytes = line ++ [Ascii.lineFeed] := by
  refine ⟨?_, hl.received hv, ?_⟩
  · rw [← Array.toList_inj, hl.received hv, hm.received hw]
    refine ⟨Token.eq_of_listing_eq hpath hl.listed.2 hm.listed.2, fun h => by rw [h]⟩
  · intro t ht
    have hline := (hl.listed.2 t ht).lineFeed_not_mem hpath
    refine ⟨encodeList t.listing.toList, ?_, ?_⟩
    · rwa [Utf8.mem_encodeList rfl]
    · rw [Token.listingBytes_eq, Utf8.encodeList_append]
      rfl

/-- A literal that looks like the end of a line, with and without a backslash that does nothing. -/
theorem listing_iff_literal :
    let a := "\" (x.s@1)\""
    let b := "\" (\\x.s@1)\" ; again"
    ∃ l m : Lexer MemoryReader, l.OnFirst ⟨"x.s"⟩ a ∧ m.OnFirst ⟨"x.s"⟩ b ∧
      (l.dump ({} : Sink)).2.received = (m.dump ({} : Sink)).2.received := by
  intro a b
  let ts : List Token := [.ofText .literal (Utf8.encode " (x.s@1)") ⟨"x.s"⟩ 1, .finish]
  have ha : (ofReader (MemoryReader.ofBytes (Utf8.encode a) ⟨"x.s"⟩)).1.map (·.tokens.toList) =
      .ok ts := by decide +kernel
  have hb : (ofReader (MemoryReader.ofBytes (Utf8.encode b) ⟨"x.s"⟩)).1.map (·.tokens.toList) =
      .ok ts := by decide +kernel
  cases hl : (ofReader (MemoryReader.ofBytes (Utf8.encode a) ⟨"x.s"⟩)).1 with
  | error e => simp [hl, Except.map] at ha
  | ok l =>
    cases hm : (ofReader (MemoryReader.ofBytes (Utf8.encode b) ⟨"x.s"⟩)).1 with
    | error e => simp [hm, Except.map] at hb
    | ok m =>
      have hlts : l.tokens.toList = ts := by simpa [hl, Except.map] using ha
      have hmts : m.tokens.toList = ts := by simpa [hm, Except.map] using hb
      have hl := OnFirst.of_made (MemoryReader.holds _ _) hl
      have hm := OnFirst.of_made (MemoryReader.holds _ _) hm
      have hfresh : Sink.Fresh {} := ⟨rfl, rfl⟩
      obtain ⟨hiff, -⟩ := listing_iff (by decide) hl hm hfresh hfresh
      exact ⟨l, m, hl, hm, hiff.2 (hlts.trans hmts.symm)⟩

end Lexer

end Asm6502
