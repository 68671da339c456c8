import Asm6502.Scan

/-!
# Counted positions

The position past some bytes in closed form: one line more than there are line feeds, and as many
columns as there are bytes since the last of them, both held at the largest counter
(`Position.past`). Reading byte by byte leads to it (`past_append`), and what stands above a line
feed only moves the lines of what stands below it (`past_below`).
-/

namespace Asm6502

namespace Position

/-- A count, held at the largest one. -/
def saturate (n : Nat) : UInt32 := UInt32.ofNat (min n 0xffffffff)

/-- The number of bytes since the last line feed. -/
def lastLine (bs : Bytes) : Nat := (bs.reverse.takeWhile (· != Ascii.lineFeed)).length

/-- The position of the byte that follows `bs`. -/
def past (bs : Bytes) : Position :=
  ⟨saturate (bs.count Ascii.lineFeed + 1), saturate (lastLine bs)⟩

theorem toNat_saturate (n : Nat) : (saturate n).toNat = min n 0xffffffff := by
  have h : min n 0xffffffff < 2 ^ 32 := by omega
  simp only [saturate, UInt32.toNat_ofNat']
  exact Nat.mod_eq_of_lt h

theorem saturate_eq_max {n : Nat} : saturate n = 0xffffffff ↔ 0xffffffff ≤ n := by
  rw [← UInt32.toNat_inj, toNat_saturate]
  show min n 0xffffffff = 0xffffffff ↔ _
  omega

theorem count_saturate (n : Nat) : count (saturate n) = saturate (n + 1) := by
  apply UInt32.toNat_inj.1
  unfold count
  split
  · rename_i h
    have hn := saturate_eq_max.1 h
    simp only [toNat_saturate]
    omega
  · rename_i h
    have hn : ¬ 0xffffffff ≤ n := fun hn => h (saturate_eq_max.2 hn)
    have hone : (1 : UInt32).toNat = 1 := rfl
    rw [UInt32.toNat_add, toNat_saturate, toNat_saturate, hone]
    omega

theorem line_past_le (bs : Bytes) : (past bs).line.toNat ≤ bs.count Ascii.lineFeed + 1 := by
  show (saturate _).toNat ≤ _
  rw [toNat_saturate]
  exact Nat.min_le_left _ _

theorem past_nil : past [] = start := rfl

theorem lastLine_append_lineFeed (bs cs : Bytes) :
    lastLine (bs ++ Ascii.lineFeed :: cs) = lastLine cs := by
  unfold lastLine
  rw [List.reverse_append, List.reverse_cons, List.append_assoc]
  generalize cs.reverse = ds
  induction ds with
  | nil => simp
  | cons d ds ih => by_cases hd : d = Ascii.lineFeed <;> simp_all

theorem after_past (bs : Bytes) (b : UInt8) : (past bs).after b = past (bs ++ [b]) := by
  unfold after
  by_cases hb : b = Ascii.lineFeed
  · subst hb
    simp [past, nextLine, count_saturate, lastLine_append_lineFeed]
    rfl
  · simp [past, nextColumn, count_saturate, hb, lastLine, List.count_append]

/-- The position that reading `bs` from `p` leads to. -/
def walk (p : Position) (bs : Bytes) : Position := bs.foldl after p

theorem walk_cons (p : Position) (b : UInt8) (bs : Bytes) :
    p.walk (b :: bs) = (p.after b).walk bs := rfl

theorem walk_append (p : Position) (bs cs : Bytes) : p.walk (bs ++ cs) = (p.walk bs).walk cs :=
  List.foldl_append

theorem past_append (bs cs : Bytes) : past (bs ++ cs) = (past bs).walk cs := by
  induction cs generalizing bs with
  | nil => simp [walk]
  | cons c cs ih => rw [walk_cons, after_past, ← ih, List.append_assoc, List.singleton_append]

/-- A line counter, `n` lines further down. -/
def lower (n : Nat) (line : UInt32) : UInt32 := saturate (line.toNat + n)

/-- A position, `n` lines further down. -/
def below (n : Nat) (p : Position) : Position := { p with line := lower n p.line }

theorem lower_saturate (n m : Nat) : lower n (saturate m) = saturate (m + n) := by
  apply UInt32.toNat_inj.1
  simp only [lower, toNat_saturate]
  omega

theorem past_below (bs cs : Bytes) :
    past (bs ++ Ascii.lineFeed :: cs) = (past cs).below (bs.count Ascii.lineFeed + 1) := by
  simp only [past, below, lower_saturate, lastLine_append_lineFeed, List.count_append,
    List.count_cons_self]
  congr 2
  omega

end Position

end Asm6502
