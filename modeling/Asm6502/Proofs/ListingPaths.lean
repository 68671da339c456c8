import Asm6502.Assemble
import Asm6502.Proofs.Paths

/-!
# Where listings are put

A listing is to be a file of its own right in the output directory (`Path.ListedIn`). It is one
when the input has a file stem, since a stem has no slash, and also when the whole input has none
(`Path.listedIn_join`). The other inputs have a slash but no file name: the root, and paths whose
last component is `.` or `..`. All their text is put behind the output directory, or in place of it.
-/

namespace Asm6502

namespace Path

variable {p : Path} {name stem : String}

/-- The path is the directory with one name behind it that has the ending of listings. -/
def ListedIn (path directory : Path) : Prop :=
  (∃ stem : String, path.components = directory.components ++ [.normal (stem ++ ".tokens")]) ∧
    ∃ above, path.parent? = some above ∧ above.same directory = true

/-! ## Names with the ending -/

theorem append_tokens_ne {short : String} (h : short.length < 7) (stem : String) :
    stem ++ ".tokens" ≠ short := by
  rintro rfl
  rw [String.length_append] at h
  have : ".tokens".length = 7 := rfl
  omega

theorem join_stem (h : '/' ∉ stem.toList) (directory : Path) :
    (directory.join (stem ++ ".tokens")).components =
        directory.components ++ [.normal (stem ++ ".tokens")] ∧
      ∃ above, (directory.join (stem ++ ".tokens")).parent? = some above ∧
        above.components = directory.components := by
  have hslash : '/' ∉ (stem ++ ".tokens").toList := by
    rw [String.toList_append, List.mem_append, not_or]
    exact ⟨h, by decide⟩
  exact join_name hslash (append_tokens_ne (by decide) stem) (append_tokens_ne (by decide) stem)
    (append_tokens_ne (by decide) stem)

theorem listedIn_join (h : '/' ∉ stem.toList) (directory : Path) :
    (directory.join (stem ++ ".tokens")).ListedIn directory := by
  obtain ⟨hcomponents, above, habove, hsame⟩ := join_stem h directory
  exact ⟨⟨stem, hcomponents⟩, above, habove, by rw [same, hsame, beq_self_eq_true]⟩

/-! ## Names from inputs -/

theorem mem_pieces_of_normal (h : .normal name ∈ p.components) : name.toList ∈ p.pieces := by
  rw [components_eq, componentsOf, List.mem_append, List.mem_filterMap] at h
  rcases h with hstart | ⟨piece, hpiece, hname⟩
  · split_ifs at hstart <;> simp at hstart
  · unfold componentOf? at hname
    split at hname <;> simp only [reduceCtorEq, Option.some.injEq, Component.normal.injEq] at hname
    rw [← hname, String.toList_ofList]
    exact hpiece

theorem slash_not_mem_stem (h : p.stem? = some stem) : '/' ∉ stem.toList := by
  obtain ⟨name, hname, rfl⟩ := Option.map_eq_some_iff.1 h
  have hmem : .normal name ∈ p.components := by
    unfold fileName? at hname
    split at hname
    · rename_i hlast
      exact Option.some.inj hname ▸ List.mem_of_getLast? hlast
    · cases hname
  exact fun hslash =>
    slash_not_mem_piece (mem_pieces_of_normal hmem) (mem_of_mem_beforeLastDot hslash)

/-- Only the empty path has no components. -/
theorem components_ne_nil (h : p.text ≠ "") : p.components ≠ [] := by
  intro hnone
  rw [components_eq, componentsOf, List.append_eq_nil_iff, List.filterMap_eq_nil_iff] at hnone
  obtain ⟨hstart, hidle⟩ := hnone
  have hp := ofPieces_pieces p
  cases habs : p.isAbsolute with
  | true => simp [habs] at hstart
  | false =>
    rw [habs] at hp hstart
    cases hpieces : p.pieces with
    | nil =>
      rw [pieces_eq] at hpieces
      exact List.splitOn_ne_nil _ _ hpieces
    | cons piece rest =>
      rw [hpieces] at hidle hp hstart
      have hnone := hidle piece List.mem_cons_self
      unfold componentOf? at hnone
      split at hnone
      · -- an empty piece in front is all of the text or stands before a slash
        cases rest with
        | nil => exact h (hp ▸ rfl)
        | cons next rest =>
          rw [← hp] at habs
          simp [isAbsolute, ofPieces, List.intercalate_cons_cons] at habs
      · simp at hstart
      · cases hnone
      · cases hnone

theorem exists_last_slash {text : List Char} (h : '/' ∈ text) :
    ∃ before after, text = before ++ '/' :: after ∧ '/' ∉ after := by
  obtain ⟨after, before, htext, hafter⟩ := List.eq_append_cons_of_mem (List.mem_reverse.2 h)
  refine ⟨before.reverse, after.reverse, ?_, by simpa using hafter⟩
  rw [← List.reverse_reverse text, htext]
  simp

/-- What stands before the last slash of a name, with the slash, is a directory that the rest is
joined to. -/
theorem join_last (h : '/' ∈ name.toList) :
    ∃ (directory : Path) (last : String), directory.text ≠ "" ∧ '/' ∉ last.toList ∧
      (Path.mk "").join (name ++ ".tokens") = directory.join (last ++ ".tokens") := by
  obtain ⟨before, after, hname, hafter⟩ := exists_last_slash h
  refine ⟨⟨String.ofList (before ++ ['/'])⟩, String.ofList after, ?_, by simpa using hafter, ?_⟩
  · simp [← String.toList_inj]
  · have hwhole : (Path.mk "").join (name ++ ".tokens") = ⟨name ++ ".tokens"⟩ := by
      unfold join
      split
      · rfl
      · simp
    have hlast : (Path.mk (String.ofList after ++ ".tokens")).isAbsolute = false :=
      isAbsolute_of_not_mem (by simp [hafter])
    rw [hwhole, join, if_neg (by simp [hlast]), if_pos (by simp)]
    congr 1
    simp [← String.toList_inj, hname]

theorem not_listedIn_join (h : '/' ∈ name.toList) :
    ¬((Path.mk "").join (name ++ ".tokens")).ListedIn ⟨""⟩ := by
  rintro ⟨⟨stem, hcomponents⟩, -⟩
  obtain ⟨directory, last, hdirectory, hlast, hjoin⟩ := join_last h
  rw [hjoin, (join_stem hlast directory).1] at hcomponents
  exact components_ne_nil hdirectory (List.append_inj_left' hcomponents rfl)

/-! ## Listings -/

/-- The listing of an input is put right into whatever output directory there is if and only if the
input has a file stem or no slash. -/
theorem listed_in_output_iff (input : Path) :
    (∀ output, ∃ path, Job.listingPath { input, output := some output } = some path ∧
        path.ListedIn output) ↔
      input.stem?.isSome = true ∨ '/' ∉ input.text.toList := by
  constructor
  · intro hall
    by_contra hbad
    rw [not_or, not_not, Option.not_isSome_iff_eq_none] at hbad
    obtain ⟨path, hpath, hlisted⟩ := hall ⟨""⟩
    simp only [Job.listingPath, Option.map_some, hbad.1, Option.getD_none,
      Option.some.injEq] at hpath
    exact not_listedIn_join hbad.2 (hpath ▸ hlisted)
  · intro hgood output
    refine ⟨_, rfl, listedIn_join ?_ output⟩
    cases hstem : input.stem? with
    | some stem => exact slash_not_mem_stem hstem
    | none => exact hgood.resolve_left (by simp [hstem])

/-- The root takes the place of the output directory, and two dots behind a directory lead below. -/
theorem listed_outside_output :
    Job.listingPath { input := ⟨"/"⟩, output := some ⟨"out"⟩ } = some ⟨"/.tokens"⟩ ∧
      ¬(Path.mk "/.tokens").ListedIn ⟨"out"⟩ ∧
      Job.listingPath { input := ⟨"src/.."⟩, output := some ⟨"out"⟩ } =
        some ⟨"out/src/...tokens"⟩ ∧
      ¬(Path.mk "out/src/...tokens").ListedIn ⟨"out"⟩ := by
  have hout : (Path.mk "out").components = [.normal "out"] := by decide +kernel
  have hroot : (Path.mk "/.tokens").components = [.root, .normal ".tokens"] := by decide +kernel
  have hbelow : (Path.mk "out/src/...tokens").components =
      [.normal "out", .normal "src", .normal "...tokens"] := by decide +kernel
  refine ⟨by decide +kernel, ?_, by decide +kernel, ?_⟩
  · rintro ⟨⟨stem, h⟩, -⟩
    simp [hroot, hout] at h
  · rintro ⟨⟨stem, h⟩, -⟩
    simp [hbelow, hout] at h

end Path

end Asm6502
