import Asm6502.Text.Lines
import Mathlib.Data.List.Induction

/-!
# Where lines stand

A line stands behind the lines above it and goes on to the next line feed, or to a carriage return
right before that (`Stands`). It has as many line feeds above it as there are lines, so that it is
found by counting them (`Stands.getElem?_split`). A carriage return before every line feed changes
no line (`splitFrom_withReturns`).
-/

namespace Asm6502.Lines

variable {c : Char} {cs line before above after rest : List Char}

theorem splitFrom_nil (line : List Char) :
    splitFrom line [] = if line = [] then [] else [line.reverse] := by
  cases line <;> simp [splitFrom]

theorem splitFrom_lineFeed (line rest : List Char) :
    splitFrom line ('\n' :: rest) = (withoutReturn line).reverse :: splitFrom [] rest := by
  simp [splitFrom]

theorem splitFrom_cons (hc : c ≠ '\n') :
    splitFrom line (c :: rest) = splitFrom (c :: line) rest := by
  simp [splitFrom]

theorem splitFrom_append (h : '\n' ∉ before) :
    splitFrom line (before ++ rest) = splitFrom (before.reverse ++ line) rest := by
  induction before generalizing line with
  | nil => rfl
  | cons c before ih =>
    obtain ⟨hc, hbefore⟩ := List.ne_and_not_mem_of_not_mem_cons h
    rw [List.cons_append, splitFrom_cons hc.symm, ih hbefore]
    simp

/-- The lines below a line feed are those of what stands below it. -/
theorem splitFrom_below (line above rest : List Char) :
    (splitFrom line (above ++ '\n' :: rest)).drop (above.count '\n' + 1) = splitFrom [] rest := by
  induction above generalizing line with
  | nil => simp [splitFrom_lineFeed]
  | cons c above ih =>
    by_cases hc : c = '\n'
    · subst hc
      simpa [splitFrom_lineFeed] using ih []
    · simpa [splitFrom_cons hc, hc] using ih (c :: line)

/-- Each character stands on a line, behind the lines above it. -/
theorem exists_line (cs : List Char) :
    ∃ above before, cs = above ++ before ∧ (above = [] ∨ above.getLast? = some '\n') ∧
      '\n' ∉ before := by
  induction cs using List.reverseRecOn with
  | nil => exact ⟨[], [], rfl, .inl rfl, by simp⟩
  | append_singleton cs c ih =>
    obtain ⟨above, before, rfl, habove, hbefore⟩ := ih
    by_cases hc : c = '\n'
    · exact ⟨above ++ before ++ [c], [], by simp, .inr (by simp [hc]), by simp⟩
    · exact ⟨above, before ++ [c], by simp, habove, by simpa using ⟨hbefore, Ne.symm hc⟩⟩

/-- The characters `line` are the line of `cs` behind `above`. The last line has no line feed and is
not empty. -/
structure Stands (cs above line : List Char) : Prop where
  above_ends : above = [] ∨ above.getLast? = some '\n'
  on_line : '\n' ∉ line
  ends : cs = above ++ line ∧ line ≠ [] ∨ ∃ below, cs = above ++ line ++ '\r' :: '\n' :: below ∨
    cs = above ++ line ++ '\n' :: below ∧ line.getLast? ≠ some '\r'

theorem withoutReturn_reverse (h : line.getLast? ≠ some '\r') :
    withoutReturn line.reverse = line.reverse := by
  unfold withoutReturn
  split
  · rename_i rest hline
    exact absurd (by rw [← List.head?_reverse, hline]; rfl) h
  · rfl

/-- Behind the lines above it, a text splits into a line and those below it. -/
theorem Stands.splitFrom_rest (h : Stands cs above line) :
    ∃ rest lines, cs = above ++ rest ∧ splitFrom [] rest = line :: lines := by
  have hline (rest : List Char) : splitFrom [] (line ++ rest) = splitFrom line.reverse rest := by
    rw [splitFrom_append h.on_line, List.append_nil]
  rcases h.ends with ⟨hcs, hne⟩ | ⟨below, hcs | ⟨hcs, hlast⟩⟩
  · refine ⟨line ++ [], [], by rw [List.append_nil, hcs], ?_⟩
    rw [hline, splitFrom_nil, if_neg (by simpa using hne), List.reverse_reverse]
  · refine ⟨line ++ '\r' :: '\n' :: below, splitFrom [] below, by rw [hcs, List.append_assoc], ?_⟩
    rw [hline, splitFrom_cons (by decide), splitFrom_lineFeed]
    exact congrArg (· :: _) (List.reverse_reverse line)
  · refine ⟨line ++ '\n' :: below, splitFrom [] below, by rw [hcs, List.append_assoc], ?_⟩
    rw [hline, splitFrom_lineFeed, withoutReturn_reverse hlast, List.reverse_reverse]

/-- A line is found behind as many lines as there are line feeds above it. -/
theorem Stands.getElem?_split {text : String} (h : Stands text.toList above line) :
    (split text)[above.count '\n']? = some (String.ofList line) := by
  obtain ⟨rest, lines, htext, hsplit⟩ := h.splitFrom_rest
  rw [split, List.getElem?_map, htext]
  rcases h.above_ends with rfl | hlast
  · simp [hsplit]
  · obtain ⟨init, rfl⟩ : ∃ init, above = init ++ ['\n'] := List.getLast?_eq_some_iff.1 hlast
    have hcount : (init ++ ['\n']).count '\n' = init.count '\n' + 1 := by simp
    rw [hcount, List.append_assoc, List.singleton_append, ← List.head?_drop, splitFrom_below,
      hsplit]
    rfl

/-- The line of `c` shows all that stands before it, and goes on with it. -/
theorem exists_stands (hcs : cs = above ++ before ++ c :: after)
    (habove : above = [] ∨ above.getLast? = some '\n') (hbefore : '\n' ∉ before)
    (hfeed : c ≠ '\n') (hreturn : c ≠ '\r') :
    ∃ more, Stands cs above (before ++ c :: more) := by
  have hon {more : List Char} (hmore : '\n' ∉ more) : '\n' ∉ before ++ c :: more := by
    simpa using ⟨hbefore, hfeed.symm, hmore⟩
  by_cases hlast : '\n' ∈ after
  · obtain ⟨run, below, rfl, hrun⟩ := List.eq_append_cons_of_mem hlast
    by_cases hend : run.getLast? = some '\r'
    · obtain ⟨run, rfl⟩ := List.getLast?_eq_some_iff.1 hend
      rw [List.mem_append, not_or] at hrun
      exact ⟨run, habove, hon hrun.1, .inr ⟨below, .inl (by simp [hcs])⟩⟩
    · refine ⟨run, habove, hon hrun, .inr ⟨below, .inr ⟨by simp [hcs], ?_⟩⟩⟩
      rw [List.getLast?_append]
      cases run with
      | nil => simpa using hreturn
      | cons d run => simpa [List.getLast?_cons_cons] using hend
  · exact ⟨after, habove, hon hlast, .inl ⟨by simp [hcs], by simp⟩⟩

/-! ## Carriage returns -/

/-- The characters with a carriage return before every line feed. -/
def withReturns (cs : List Char) : List Char :=
  cs.flatMap fun c => if c = '\n' then ['\r', '\n'] else [c]

theorem splitFrom_withReturns (hline : '\r' ∉ line) (hrest : '\r' ∉ rest) :
    splitFrom line (withReturns rest) = splitFrom line rest := by
  induction rest generalizing line with
  | nil => rfl
  | cons c rest ih =>
    obtain ⟨hc, hmore⟩ := List.ne_and_not_mem_of_not_mem_cons hrest
    by_cases hfeed : c = '\n'
    · subst hfeed
      have hkept : withoutReturn line = line := by
        cases line with
        | nil => rfl
        | cons d line =>
          have hd := (List.ne_and_not_mem_of_not_mem_cons hline).1
          simp [withoutReturn, hd.symm]
      have hcons : withReturns ('\n' :: rest) = '\r' :: '\n' :: withReturns rest := rfl
      rw [hcons, splitFrom_cons (by decide), splitFrom_lineFeed, splitFrom_lineFeed, hkept,
        ih List.not_mem_nil hmore]
      rfl
    · have hcons : withReturns (c :: rest) = c :: withReturns rest := by
        simp [withReturns, hfeed]
      rw [hcons, splitFrom_cons hfeed, splitFrom_cons hfeed]
      exact ih (List.not_mem_cons_of_ne_of_not_mem hc hline) hmore

theorem split_withReturns {text : String} (h : '\r' ∉ text.toList) :
    split (String.ofList (withReturns text.toList)) = split text := by
  rw [split, split, String.toList_ofList, splitFrom_withReturns (by simp) h]

end Asm6502.Lines
