import Asm6502.Path
import Mathlib.Data.List.Induction

/-!
# Paths as pieces

A path is its pieces with slashes between them (`Path.ofPieces_pieces`), and what is above a path is
made of the first of its pieces (`Path.Above`, `Path.mem_ancestors`). Joining a name to a path adds
one piece (`Path.pieces_join`) and so one component, with the path right above it
(`Path.join_name`).
-/

namespace Asm6502

namespace Path

variable {p q r : Path} {front more pieces : List (List Char)} {piece : List Char}
  {name stem : String} {absolute : Bool}

/-! ## Pieces -/

/-- No part of what was split at a separator has it. -/
theorem not_mem_of_mem_splitOn {α : Type} [BEq α] [LawfulBEq α] {a : α} {xs part : List α}
    (h : part ∈ xs.splitOn a) : a ∉ part := by
  by_cases ha : a ∈ xs
  · obtain ⟨before, after, rfl⟩ := List.append_of_mem ha
    rw [List.splitOn_append_cons_self] at h
    rcases List.mem_append.1 h with h | h
    · exact not_mem_of_mem_splitOn h
    · exact not_mem_of_mem_splitOn h
  · rw [List.splitOn_eq_singleton ha, List.mem_singleton] at h
    exact h ▸ ha
termination_by xs.length
decreasing_by all_goals simp_all only [List.length_append, List.length_cons]; omega

theorem intercalate_prefix {α : Type} {sep : List α} {xs ys : List (List α)} (h : xs <+: ys) :
    sep.intercalate xs <+: sep.intercalate ys := by
  induction xs generalizing ys with
  | nil => exact List.nil_prefix
  | cons x xs ih =>
    obtain ⟨more, rfl⟩ := h
    cases xs with
    | nil =>
      cases more with
      | nil => exact List.prefix_rfl
      | cons y more =>
        rw [List.singleton_append, List.intercalate_cons_cons, List.append_assoc]
        simp
    | cons x' xs =>
      rw [List.cons_append, List.cons_append, List.intercalate_cons_cons,
        List.intercalate_cons_cons, List.prefix_append_right_inj]
      exact ih ⟨more, rfl⟩

/-- A path without the slash of the root. -/
def body (p : Path) : List Char := if p.isAbsolute then p.text.toList.tail else p.text.toList

theorem pieces_eq (p : Path) : p.pieces = p.body.splitOn '/' := by
  unfold pieces body
  split <;> rfl

theorem slash_not_mem_piece {piece : List Char} (h : piece ∈ p.pieces) : '/' ∉ piece := by
  rw [pieces_eq] at h
  exact not_mem_of_mem_splitOn h

/-- The path with the given pieces. -/
def ofPieces (absolute : Bool) (pieces : List (List Char)) : Path :=
  ⟨String.ofList (if absolute then '/' :: ['/'].intercalate pieces else ['/'].intercalate pieces)⟩

theorem ofPieces_pieces (p : Path) : ofPieces p.isAbsolute p.pieces = p := by
  obtain ⟨text⟩ := p
  rw [ofPieces, pieces_eq, List.intercalate_splitOn, body]
  congr 1
  rw [← String.toList_inj, String.toList_ofList]
  cases habs : (Path.mk text).isAbsolute with
  | false => rfl
  | true =>
    rw [isAbsolute, beq_iff_eq] at habs
    obtain ⟨rest, hrest⟩ := List.head?_eq_some_iff.1 habs
    simp [hrest]

/-- The text of a path made of the first pieces is the beginning of the text. -/
theorem ofPieces_text_prefix (h : front <+: p.pieces) :
    (ofPieces p.isAbsolute front).text.toList <+: p.text.toList := by
  have htext : (ofPieces p.isAbsolute p.pieces).text.toList = p.text.toList := by
    rw [ofPieces_pieces]
  rw [← htext]
  simp only [ofPieces, String.toList_ofList]
  split
  · exact List.cons_prefix_cons.2 ⟨rfl, intercalate_prefix h⟩
  · exact intercalate_prefix h

theorem isAbsolute_ofPieces (h : front <+: p.pieces) :
    (ofPieces p.isAbsolute front).isAbsolute = p.isAbsolute := by
  cases habs : p.isAbsolute with
  | true => simp [isAbsolute, ofPieces]
  | false =>
    obtain ⟨rest, hrest⟩ := ofPieces_text_prefix h
    rw [habs] at hrest
    -- a beginning of a text without a slash in front has none either
    simp only [isAbsolute, ← hrest] at habs ⊢
    cases htext : (ofPieces false front).text.toList with
    | nil => rfl
    | cons c text => simpa [htext] using habs

theorem pieces_ofPieces (h : front <+: p.pieces) (hne : front ≠ []) :
    (ofPieces p.isAbsolute front).pieces = front := by
  have hbody : (ofPieces p.isAbsolute front).body = ['/'].intercalate front := by
    rw [body, isAbsolute_ofPieces h]
    cases p.isAbsolute <;> simp [ofPieces]
  rw [pieces_eq, hbody]
  exact List.splitOn_intercalate _ (fun piece hpiece => slash_not_mem_piece (h.subset hpiece)) hne

/-! ## Parents -/

/-- The path `q` is made of the first pieces of `p`, and not of all of them. -/
def Above (q p : Path) : Prop :=
  ∃ front more, p.pieces = front ++ more ∧ more ≠ [] ∧ q = ofPieces p.isAbsolute front

theorem Above.text (h : Above q p) : ∃ rest, p.text = q.text ++ rest := by
  obtain ⟨front, more, hpieces, -, rfl⟩ := h
  obtain ⟨rest, hrest⟩ := ofPieces_text_prefix ⟨more, hpieces.symm⟩
  refine ⟨String.ofList rest, ?_⟩
  rw [← String.toList_inj, String.toList_append, String.toList_ofList, hrest]

theorem Above.trans (h : Above r q) (h' : Above q p) : Above r p := by
  obtain ⟨front', more', hpieces', hmore', rfl⟩ := h'
  obtain ⟨front, more, hpieces, hmore, rfl⟩ := h
  have hprefix : front' <+: p.pieces := ⟨more', hpieces'.symm⟩
  rw [isAbsolute_ofPieces hprefix]
  cases front' with
  | nil =>
    -- the root and the empty path have one empty piece, so that nothing but themselves is above
    have hone : (ofPieces p.isAbsolute []).pieces = [[]] := by cases p.isAbsolute <;> rfl
    have hfront : front = [] := by
      rw [hone] at hpieces
      cases front with
      | nil => rfl
      | cons piece front =>
        rw [List.cons_append, List.cons.injEq] at hpieces
        exact absurd (List.append_eq_nil_iff.1 hpieces.2.symm).2 hmore
    exact ⟨[], more', hpieces', hmore', by rw [hfront]⟩
  | cons piece front' =>
    rw [pieces_ofPieces hprefix (List.cons_ne_nil _ _)] at hpieces
    exact ⟨front, more ++ more', by rw [hpieces', hpieces, List.append_assoc], by simp [hmore], rfl⟩

theorem dropIdle_prefix (pieces : List (List Char)) : dropIdle pieces <+: pieces := by
  rw [dropIdle, ← List.reverse_suffix, List.reverse_reverse]
  exact List.dropWhile_suffix _

theorem upToLast_prefix (p : Path) (pieces : List (List Char)) : p.upToLast pieces <+: pieces := by
  unfold upToLast
  split
  · exact List.cons_prefix_cons.2 ⟨rfl, dropIdle_prefix _⟩
  · exact dropIdle_prefix _

theorem above_of_parent? (h : p.parent? = some q) : Above q p := by
  unfold parent? at h
  split at h
  · cases h
  · rename_i hne
    have hprefix := (p.upToLast_prefix _).trans
      ((List.dropLast_prefix _).trans (p.upToLast_prefix p.pieces))
    obtain ⟨more, hmore⟩ := hprefix
    refine ⟨_, more, hmore.symm, ?_, (Option.some.inj h).symm⟩
    rintro rfl
    rw [List.append_nil] at hmore
    have hshort := (p.upToLast_prefix (p.upToLast p.pieces).dropLast).length_le
    have hlong := (p.upToLast_prefix p.pieces).length_le
    have hpos := List.length_pos_iff.2 hne
    rw [hmore, List.length_dropLast] at hshort
    omega

theorem mem_upward {n : Nat} (h : q ∈ p.upward n) : q = p ∨ Above q p := by
  induction n generalizing p with
  | zero => exact .inl (List.mem_singleton.1 h)
  | succ n ih =>
    rcases List.mem_cons.1 h with rfl | h
    · exact .inl rfl
    · cases hparent : p.parent? with
      | none => simp [hparent] at h
      | some parent =>
        rw [hparent] at h
        have habove := above_of_parent? hparent
        rcases ih h with rfl | h
        · exact .inr habove
        · exact .inr (h.trans habove)

theorem mem_ancestors (h : q ∈ p.ancestors) : q = p ∨ Above q p := mem_upward h

/-! ## Components -/

/-- The components that pieces stand for. Only a dot in front of a relative path stands for
something else than in other places. -/
def componentsOf (absolute : Bool) (pieces : List (List Char)) : List Component :=
  (if absolute then [.root] else if pieces.head? = some ['.'] then [.current] else []) ++
    pieces.filterMap componentOf?

theorem components_eq (p : Path) : p.components = componentsOf p.isAbsolute p.pieces := by
  unfold components componentsOf
  split
  · rfl
  · split
    · rename_i rest hdot
      rw [hdot]
      rfl
    · rename_i hdot
      have hhead : p.pieces.head? ≠ some ['.'] := fun hhead => by
        obtain ⟨rest, hrest⟩ := List.head?_eq_some_iff.1 hhead
        exact hdot rest hrest
      rw [if_neg hhead, List.nil_append]

theorem componentsOf_concat (h : piece ≠ ['.']) :
    componentsOf absolute (front ++ [piece]) =
      componentsOf absolute front ++ (componentOf? piece).toList := by
  have hhead : (front ++ [piece]).head? = some ['.'] ↔ front.head? = some ['.'] := by
    cases front with
    | nil => simpa using h
    | cons => rfl
  simp only [componentsOf, hhead, List.filterMap_append, List.append_assoc]
  cases hpiece : componentOf? piece <;> simp [hpiece]

theorem dropIdle_concat_some (h : componentOf? piece ≠ none) :
    dropIdle (pieces ++ [piece]) = pieces ++ [piece] := by
  simp [dropIdle, h]

theorem dropIdle_concat_none (h : componentOf? piece = none) :
    dropIdle (pieces ++ [piece]) = dropIdle pieces := by
  simp [dropIdle, h]

theorem filterMap_dropIdle (pieces : List (List Char)) :
    (dropIdle pieces).filterMap componentOf? = pieces.filterMap componentOf? := by
  induction pieces using List.reverseRecOn with
  | nil => rfl
  | append_singleton pieces piece ih =>
    by_cases hidle : componentOf? piece = none
    · rw [dropIdle_concat_none hidle, ih]
      simp [hidle]
    · rw [dropIdle_concat_some hidle]

theorem upToLast_dot (h : p.isAbsolute = false) (rest : List (List Char)) :
    p.upToLast (['.'] :: rest) = ['.'] :: dropIdle rest := by
  simp [upToLast, h]

theorem upToLast_eq_dropIdle (h : p.isAbsolute = true ∨ pieces.head? ≠ some ['.']) :
    p.upToLast pieces = dropIdle pieces := by
  unfold upToLast
  split
  · rename_i habs
    simp [habs] at h
  · rfl

theorem leading_dot_or_not (p : Path) (pieces : List (List Char)) :
    (p.isAbsolute = false ∧ ∃ rest, pieces = ['.'] :: rest) ∨
      (p.isAbsolute = true ∨ pieces.head? ≠ some ['.']) := by
  rw [← List.head?_eq_some_iff]
  cases p.isAbsolute <;> simp [em]

theorem componentsOf_upToLast (p : Path) (pieces : List (List Char)) :
    componentsOf p.isAbsolute (p.upToLast pieces) = componentsOf p.isAbsolute pieces := by
  rcases leading_dot_or_not p pieces with ⟨habs, rest, rfl⟩ | hstart
  · rw [upToLast_dot habs, componentsOf, componentsOf, List.filterMap_cons, filterMap_dropIdle]
    rfl
  · rw [upToLast_eq_dropIdle hstart, componentsOf, componentsOf, filterMap_dropIdle]
    rcases hstart with habs | hdot
    · rw [if_pos habs, if_pos habs]
    · -- what is left of the pieces starts as they did
      have hdot' : (dropIdle pieces).head? ≠ some ['.'] := fun hhead => by
        obtain ⟨rest, hrest⟩ := List.head?_eq_some_iff.1 hhead
        obtain ⟨more, hmore⟩ := dropIdle_prefix pieces
        rw [hrest] at hmore
        exact hdot (by rw [← hmore]; rfl)
      rw [if_neg hdot, if_neg hdot']

/-- A last piece that names a component stays. -/
theorem upToLast_concat (p : Path) (h : componentOf? piece ≠ none) :
    p.upToLast (front ++ [piece]) = front ++ [piece] := by
  rcases leading_dot_or_not p (front ++ [piece]) with ⟨habs, rest, hrest⟩ | hstart
  · cases front with
    | nil =>
      obtain rfl := (List.cons.inj hrest).1
      exact absurd rfl h
    | cons dot front =>
      obtain rfl := (List.cons.inj hrest).1
      rw [List.cons_append, upToLast_dot habs, dropIdle_concat_some h]
  · rw [upToLast_eq_dropIdle hstart, dropIdle_concat_some h]

theorem components_ofPieces (h : front <+: p.pieces) :
    (ofPieces p.isAbsolute front).components = componentsOf p.isAbsolute front := by
  rw [components_eq, isAbsolute_ofPieces h]
  by_cases hne : front = []
  · subst hne
    cases p.isAbsolute <;> rfl
  · rw [pieces_ofPieces h hne]

/-- The parent is made of the pieces before the last one that names a component. -/
theorem parent?_of_concat (h : p.upToLast p.pieces = front ++ [piece]) :
    p.parent? = some (ofPieces p.isAbsolute (p.upToLast front)) := by
  unfold parent?
  split
  · rename_i hnone
    simp [hnone] at h
  · rw [h, List.dropLast_concat]
    rfl

/-! ## Names -/

theorem componentOf?_name (hempty : name ≠ "") (hdot : name ≠ ".") (hdots : name ≠ "..") :
    componentOf? name.toList = some (.normal name) := by
  unfold componentOf?
  split
  · rename_i h
    exact absurd (String.toList_eq_nil_iff.1 h) hempty
  · rename_i h
    exact absurd (String.toList_inj.1 h) hdot
  · rename_i h
    exact absurd (String.toList_inj.1 h) hdots
  · rw [String.ofList_toList]

theorem componentsOf_concat_name (hempty : name ≠ "") (hdot : name ≠ ".") (hdots : name ≠ "..") :
    componentsOf absolute (front ++ [name.toList]) =
      componentsOf absolute front ++ [.normal name] := by
  rw [componentsOf_concat fun h => hdot (String.toList_inj.1 h),
    componentOf?_name hempty hdot hdots]
  rfl

/-- The last piece of a path is its file name if it stands for no directory. -/
theorem fileName?_of_pieces (h : p.pieces = front ++ [name.toList]) (hempty : name ≠ "")
    (hdot : name ≠ ".") (hdots : name ≠ "..") : p.fileName? = some name := by
  have hlast : p.components.getLast? = some (.normal name) := by
    rw [components_eq, h, componentsOf_concat_name hempty hdot hdots, List.getLast?_concat]
  rw [fileName?, hlast]

theorem beforeLastDot_ne_empty (h : name ≠ "") : beforeLastDot name ≠ "" := by
  unfold beforeLastDot
  split
  · simp [← String.toList_inj]
  · exact h

theorem mem_of_mem_beforeLastDot {c : Char} (h : c ∈ (beforeLastDot name).toList) :
    c ∈ name.toList := by
  unfold beforeLastDot at h
  split at h
  · rename_i d e before hcut
    have hsub := (List.dropWhile_suffix (l := name.toList.reverse) (· != '.')).subset
    rw [hcut] at hsub
    rw [String.toList_ofList, List.mem_reverse] at h
    exact List.mem_reverse.1 (hsub (List.mem_cons_of_mem _ h))
  · exact h

/-- The ending that is put behind a stem is the one that is taken away. -/
theorem beforeLastDot_append (h : stem ≠ "") : beforeLastDot (stem ++ ".tokens") = stem := by
  have hcut : (stem ++ ".tokens").toList.reverse.dropWhile (· != '.') =
      '.' :: stem.toList.reverse := by
    rw [String.toList_append, List.reverse_append]
    rfl
  unfold beforeLastDot
  rw [hcut]
  cases hstem : stem.toList.reverse with
  | nil => exact absurd (String.toList_eq_nil_iff.1 (List.reverse_eq_nil_iff.1 hstem)) h
  | cons c before =>
    show String.ofList (c :: before).reverse = stem
    rw [← hstem, List.reverse_reverse, String.ofList_toList]

/-! ## Joined paths -/

theorem isAbsolute_of_not_mem (h : '/' ∉ name.toList) : (Path.mk name).isAbsolute = false := by
  rw [isAbsolute, beq_eq_false_iff_ne]
  exact fun hhead => h (List.mem_of_mem_head? hhead)

/-- More text behind a path that has some. -/
theorem append_text (h : p.text ≠ "") (more : String) :
    (Path.mk (p.text ++ more)).isAbsolute = p.isAbsolute ∧
      (Path.mk (p.text ++ more)).pieces = (p.body ++ more.toList).splitOn '/' := by
  cases htext : p.text.toList with
  | nil => exact absurd (String.toList_eq_nil_iff.1 htext) h
  | cons c text =>
    have habs : (Path.mk (p.text ++ more)).isAbsolute = p.isAbsolute := by
      simp [isAbsolute, htext]
    refine ⟨habs, ?_⟩
    rw [pieces_eq, body, body, habs]
    split <;> simp [htext]

theorem body_of_slash (h : p.text.toList.getLast? = some '/') :
    p.body = [] ∨ ∃ before, p.body = before ++ ['/'] := by
  obtain ⟨before, hbefore⟩ := List.getLast?_eq_some_iff.1 h
  rw [body, hbefore]
  split
  · cases before with
    | nil => exact .inl rfl
    | cons c before => exact .inr ⟨before, rfl⟩
  · exact .inr ⟨before, rfl⟩

/-- Joining a name to a path adds to its text. -/
theorem join_text (hslash : '/' ∉ name.toList) : ∃ rest, (p.join name).text = p.text ++ rest := by
  rw [join, if_neg (by simp [isAbsolute_of_not_mem hslash])]
  split
  · exact ⟨name, rfl⟩
  · exact ⟨"/" ++ name, String.append_assoc⟩

/-- A name behind a path is its last piece. The pieces before it are those of the path, without an
empty one at the end. -/
theorem pieces_join (hslash : '/' ∉ name.toList) :
    ∃ front, (p.join name).pieces = front ++ [name.toList] ∧
      (p.join name).isAbsolute = p.isAbsolute ∧
        (p.text = "" ∧ front = [] ∨
          p.text ≠ "" ∧ (p.pieces = front ∨ p.pieces = front ++ [[]])) := by
  have hname := isAbsolute_of_not_mem hslash
  have hone := List.splitOn_eq_singleton hslash
  rw [join, if_neg (by simp [hname])]
  by_cases hempty : p.text = ""
  · have hp : p.isAbsolute = false := by simp [isAbsolute, hempty]
    rw [if_pos (by simp [hempty]), hempty, String.empty_append]
    refine ⟨[], ?_, hname.trans hp.symm, .inl ⟨rfl, rfl⟩⟩
    rw [pieces_eq, body, hname]
    exact hone
  · split
    · rename_i hlast
      obtain ⟨habs, hpieces⟩ := append_text hempty name
      have hslash : p.text.toList.getLast? = some '/' := by
        cases htext : p.text.toList.getLast? with
        | none => exact absurd (by simpa using htext) hempty
        | some c => simpa [htext] using hlast
      -- the slash at the end has an empty piece behind it, which the name takes the place of
      rcases body_of_slash hslash with hbody | ⟨before, hbody⟩
      · refine ⟨[], ?_, habs, .inr ⟨hempty, .inr ?_⟩⟩
        · rw [hpieces, hbody]
          exact hone
        · rw [pieces_eq, hbody]
          exact List.splitOn_nil '/'
      · refine ⟨before.splitOn '/', ?_, habs, .inr ⟨hempty, .inr ?_⟩⟩
        · rw [hpieces, hbody, List.append_assoc, ← hone]
          exact List.splitOn_append_cons_self _ _
        · rw [pieces_eq, hbody, ← List.splitOn_nil '/']
          exact List.splitOn_append_cons_self _ _
    · rw [String.append_assoc]
      obtain ⟨habs, hpieces⟩ := append_text hempty ("/" ++ name)
      refine ⟨p.pieces, ?_, habs, .inr ⟨hempty, .inl rfl⟩⟩
      rw [hpieces, String.toList_append, pieces_eq, ← hone]
      exact List.splitOn_append_cons_self _ _

/-- The components of a path before those of the name joined to it. -/
theorem componentsOf_front
    (h : p.text = "" ∧ front = [] ∨ p.text ≠ "" ∧ (p.pieces = front ∨ p.pieces = front ++ [[]])) :
    componentsOf p.isAbsolute front = p.components := by
  rcases h with ⟨hempty, rfl⟩ | ⟨-, rfl | hfront⟩
  · obtain ⟨text⟩ := p
    obtain rfl : text = "" := hempty
    rfl
  · rw [components_eq]
  · rw [components_eq, hfront, componentsOf_concat (by simp)]
    simp [componentOf?]

/-- A name joined to a path is one component more, and the path is what stands above it. -/
theorem join_name (hslash : '/' ∉ name.toList) (hempty : name ≠ "") (hdot : name ≠ ".")
    (hdots : name ≠ "..") :
    (p.join name).components = p.components ++ [.normal name] ∧
      ∃ above, (p.join name).parent? = some above ∧ above.components = p.components := by
  obtain ⟨front, hpieces, habs, hfront⟩ := pieces_join (p := p) hslash
  have hname := componentOf?_name hempty hdot hdots
  refine ⟨?_, ofPieces (p.join name).isAbsolute ((p.join name).upToLast front), ?_, ?_⟩
  · rw [components_eq, hpieces, componentsOf_concat_name hempty hdot hdots, habs,
      componentsOf_front hfront]
  · exact parent?_of_concat (by rw [hpieces, upToLast_concat _ (by simp [hname])])
  · have hup := upToLast_prefix (p.join name) front
    rw [components_ofPieces (hup.trans ⟨_, hpieces.symm⟩), componentsOf_upToLast, habs,
      componentsOf_front hfront]

end Path

end Asm6502
