import Mathlib.Data.List.Basic
import AfbBinder.Lib.Cstrings

/-! Lines that a CR and a LF end, and heads of messages: lines up to an empty one. -/
namespace AfbBinder.Lib.CrLf
open Cstrings

abbrev CR : UInt8 := 13
abbrev LF : UInt8 := 10

/-- The first line and what follows its end, if it has one. -/
def splitLine : Bytes → Option (Bytes × Bytes)
  | [] => none
  | b :: s =>
    if b = CR ∧ s.head? = some LF then some ([], s.tail) else (splitLine s).map fun r => (b :: r.1, r.2)

section
variable {b : UInt8} {s x y z after after' : Bytes} {ls ls' : List Bytes}

theorem splitLine_end (s : Bytes) : splitLine (CR :: LF :: s) = some ([], s) := by
  rw [splitLine, if_pos ⟨rfl, rfl⟩, List.tail_cons]

theorem splitLine_cons (h : ¬ (b = CR ∧ s.head? = some LF)) :
    splitLine (b :: s) = (splitLine s).map fun r => (b :: r.1, r.2) := by
  rw [splitLine, if_neg h]

theorem splitLine_eq (h : splitLine s = some (x, y)) : s = x ++ CR :: LF :: y := by
  induction s generalizing x with
  | nil => cases h
  | cons b s ih =>
    rw [splitLine] at h
    split at h
    next hend =>
      obtain ⟨rfl, hhead⟩ := hend
      cases h
      cases s with
      | nil => cases hhead
      | cons c s =>
        cases hhead
        rfl
    next =>
      obtain ⟨⟨x', y'⟩, hrest, heq⟩ := Option.map_eq_some_iff.mp h
      cases heq
      rw [ih hrest, List.cons_append]

/-- What follows the end of the line does not matter. -/
theorem splitLine_self (h : splitLine s = some (x, y)) (z : Bytes) :
    splitLine (x ++ CR :: LF :: z) = some (x, z) := by
  induction s generalizing x with
  | nil => cases h
  | cons b s ih =>
    rw [splitLine] at h
    split at h
    next =>
      cases h
      exact splitLine_end z
    next hnot =>
      obtain ⟨⟨x', y'⟩, hrest, heq⟩ := Option.map_eq_some_iff.mp h
      cases heq
      have hhead : (x' ++ CR :: LF :: z).head? = s.head? := by
        rw [splitLine_eq hrest]
        cases x' <;> rfl
      rw [List.cons_append, splitLine_cons (hhead ▸ hnot), ih hrest]
      rfl

theorem splitLine_append (h : splitLine s = some (x, y)) (z : Bytes) : splitLine (s ++ z) = some (x, y ++ z) := by
  have hself := splitLine_self h (y ++ z)
  rwa [← List.cons_append, ← List.cons_append, ← List.append_assoc, ← splitLine_eq h] at hself

/-- A line that ends before what is appended. -/
theorem splitLine_of_append (h : splitLine (s ++ z) = some (x, y)) (hlen : x.length + 2 ≤ s.length) :
    splitLine s = some (x, s.drop (x.length + 2)) := by
  have htake : s.take (x.length + 2) = x ++ [CR, LF] := by
    have heq := congrArg (List.take (x.length + 2)) (splitLine_eq h)
    have hsum : x.length + 2 - x.length = 2 := by omega
    rw [List.take_append_of_le_length hlen, List.take_append, List.take_of_length_le (Nat.le_add_right _ _), hsum] at heq
    exact heq
  have hs : s = x ++ CR :: LF :: s.drop (x.length + 2) := by
    conv_lhs => rw [← List.take_append_drop (x.length + 2) s, htake, List.append_assoc]
    rfl
  conv_lhs => rw [hs]
  exact splitLine_self h _

theorem splitLine_length (h : splitLine s = some (x, y)) : x.length + 2 ≤ s.length := by
  rw [splitLine_eq h, List.length_append, List.length_cons, List.length_cons]
  omega

theorem splitLine_take {n : Nat} (h : splitLine s = some (x, y)) (hlen : x.length + 2 ≤ n) :
    ∃ z, splitLine (s.take n) = some (x, z) := by
  have hall : splitLine (s.take n ++ s.drop n) = some (x, y) := by rwa [List.take_append_drop]
  refine ⟨_, splitLine_of_append hall ?_⟩
  rw [List.length_take]
  exact Nat.le_min.mpr ⟨hlen, splitLine_length h⟩

theorem splitLine_of_take {n : Nat} (h : splitLine (s.take n) = some (x, y)) : ∃ z, splitLine s = some (x, z) := by
  have hall := splitLine_append h (s.drop n)
  rw [List.take_append_drop] at hall
  exact ⟨_, hall⟩

/-- The lines of a head, and what follows the empty line. -/
inductive Head : Bytes → List Bytes → Bytes → Prop
  | last {s after : Bytes} (h : splitLine s = some ([], after)) : Head s [] after
  | line {s x y after : Bytes} {ls : List Bytes} (h : splitLine s = some (x, y)) (hx : x ≠ [])
    (ht : Head y ls after) : Head s (x :: ls) after

theorem Head.unique (h : Head s ls after) (h' : Head s ls' after') : ls = ls' ∧ after = after' := by
  induction h generalizing ls' with
  | last h =>
    cases h' with
    | last h' =>
      cases h.symm.trans h'
      exact ⟨rfl, rfl⟩
    | line h' hx' _ =>
      cases h.symm.trans h'
      exact absurd rfl hx'
  | line h hx _ ih =>
    cases h' with
    | last h' =>
      cases h.symm.trans h'
      exact absurd rfl hx
    | line h' _ ht' =>
      cases h.symm.trans h'
      obtain ⟨rfl, rfl⟩ := ih ht'
      exact ⟨rfl, rfl⟩

theorem Head.append (h : Head s ls after) (z : Bytes) : Head (s ++ z) ls (after ++ z) := by
  induction h with
  | last h => exact .last (splitLine_append h z)
  | line h hx _ ih => exact .line (splitLine_append h z) hx ih

/-- A line without CR ends at the first end of line. -/
theorem splitLine_line (h : CR ∉ x) (y : Bytes) : splitLine (x ++ CR :: LF :: y) = some (x, y) := by
  induction x with
  | nil => exact splitLine_end y
  | cons b x ih =>
    rw [List.mem_cons, not_or] at h
    rw [List.cons_append, splitLine_cons fun hb => h.1 hb.1.symm, ih h.2]
    rfl

/-- The text of a head. -/
def headText (lines : List Bytes) : Bytes := lines.flatMap (· ++ [CR, LF]) ++ [CR, LF]

theorem head_headText (h : ∀ line ∈ ls, line ≠ [] ∧ CR ∉ line) (z : Bytes) : Head (headText ls ++ z) ls z := by
  induction ls with
  | nil => exact .last (splitLine_end z)
  | cons line ls ih =>
    rw [List.forall_mem_cons] at h
    have htext : headText (line :: ls) ++ z = line ++ CR :: LF :: (headText ls ++ z) := by
      simp [headText, List.append_assoc]
    rw [htext]
    exact .line (splitLine_line h.1.2 _) h.1.1 (ih h.2)

theorem Head.two_le (h : Head s ls after) : 2 ≤ s.length := by
  cases h with
  | last h =>
    rw [splitLine_eq h]
    exact Nat.le_add_left 2 after.length
  | line h _ _ =>
    rw [splitLine_eq h, List.length_append]
    exact Nat.le_trans (Nat.le_add_left 2 _) (Nat.le_add_left _ _)

end

end AfbBinder.Lib.CrLf
