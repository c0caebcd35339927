import Mathlib.Data.List.Basic

/-! The words of a list: its longest runs free of separators. -/
namespace AfbBinder.Lib.Words

/-- What is dropped stops at the first element that is kept. -/
theorem stop_of_dropWhile {α : Type*} {p : α → Bool} {l rest : List α} {x : α} (h : l.dropWhile p = x :: rest) :
    p x = false := by
  have hstop := List.head?_dropWhile_not p l
  rw [h] at hstop
  exact hstop

def words {α : Type} [DecidableEq α] (sep : α → Bool) (l : List α) : List (List α) :=
  (l.splitOnP sep).filter (· ≠ [])

section
variable {α : Type} [DecidableEq α] {sep : α → Bool}

theorem words_sep {x : α} (l : List α) (h : sep x = true) : words sep (x :: l) = words sep l := by
  unfold words
  rw [List.splitOnP_cons_eq_if_modifyHead, if_pos h, List.filter_cons_of_neg (by simp)]

theorem words_skip (l : List α) : words sep (l.dropWhile sep) = words sep l := by
  induction l with
  | nil => rfl
  | cons x l ih =>
    cases h : sep x with
    | false => rw [List.dropWhile_cons_of_neg (by simp [h])]
    | true => rw [List.dropWhile_cons_of_pos h, ih, words_sep l h]

/-- The first word, that x starts. -/
theorem words_cons {x : α} (l : List α) (h : sep x = false) :
    words sep (x :: l) =
      (x :: l.takeWhile fun y => !sep y) :: words sep (l.dropWhile fun y => !sep y) := by
  have hword : ∀ y ∈ x :: l.takeWhile (fun y => !sep y), sep y = false := by
    intro y hy
    rcases List.mem_cons.mp hy with rfl | hy
    · exact h
    · simpa using List.all_eq_true.mp List.all_takeWhile y hy
  have hsplit : x :: l =
      (x :: l.takeWhile fun y => !sep y) ++ l.dropWhile fun y => !sep y := by
    rw [List.cons_append, List.takeWhile_append_dropWhile]
  cases hrest : l.dropWhile fun y => !sep y with
  | nil =>
    rw [hrest, List.append_nil] at hsplit
    rw [hsplit, words, List.splitOnP_eq_singleton hword]
    rfl
  | cons y rest =>
    have hy : sep y = true := by
      have hstop := stop_of_dropWhile hrest
      simpa using hstop
    rw [hrest] at hsplit
    rw [words_sep rest hy, hsplit, words,
      List.splitOnP_append_cons_of_forall_mem hword y hy, List.filter_cons_of_pos (by simp)]
    rfl

end

end AfbBinder.Lib.Words
