import AfbBinder.WsClient.Model

/-! The lines that receive_line gives: those of the stream, and at its end what the array has. -/
namespace AfbBinder.WsClient
open Lib.Cstrings Lib.CrLf Lib.Loops

/-- The bytes that receive_line goes through: at the end of the stream, those left in the array. -/
def seen (closes : Bool) (input line : Bytes) : Bytes :=
  if closes then (input ++ line.drop input.length).take line.length else input.take line.length

/-- The array where this line was put. -/
def written (x line : Bytes) : Bytes := x ++ 0 :: LF :: line.drop (x.length + 2)

section
variable {closes : Bool} {input line x y rest : Bytes} {old : UInt8} {n : Nat}

private theorem seen_nil : seen closes input [] = [] := by
  unfold seen
  split <;> rfl

private theorem seen_end : seen false [] line = [] := List.take_nil

private theorem seen_cons (h : ¬ (input = [] ∧ closes = false)) :
    seen closes input (old :: line) = input.headD old :: seen closes input.tail line := by
  unfold seen
  cases input with
  | nil =>
    cases closes with
    | false => exact absurd ⟨rfl, rfl⟩ h
    | true => rfl
  | cons b input => cases closes <;> rfl

/-- The loop, from a place that follows a CR or not. -/
theorem receiveLineLoop_eq (closes : Bool) (done input line : Bytes) :
    receiveLineLoop closes done false input line = (splitLine (seen closes input line)).map (fun r =>
      ((done ++ r.1).length, input.drop (r.1.length + 2), done ++ written r.1 line)) ∧
    receiveLineLoop closes (done ++ [CR]) true input line = (splitLine (CR :: seen closes input line)).map fun r =>
      ((done ++ r.1).length, input.drop (r.1.length + 1), done ++ r.1 ++ 0 :: LF :: line.drop (r.1.length + 1)) := by
  induction line generalizing done input with
  | nil =>
    rw [seen_nil]
    exact ⟨rfl, rfl⟩
  | cons old line ih =>
    by_cases hend : input = [] ∧ closes = false
    · obtain ⟨rfl, rfl⟩ := hend
      rw [seen_end]
      exact ⟨rfl, rfl⟩
    rw [seen_cons hend, receiveLineLoop, receiveLineLoop, if_neg hend, if_neg hend]
    dsimp only
    have hdrop (k : Nat) : input.drop (k + 1) = input.tail.drop k := by
      rw [← List.drop_one, List.drop_drop, Nat.add_comm]
    generalize input.headD old = c
    generalize hS : seen closes input.tail line = S at *
    by_cases hcr : c = CR
    · subst hcr
      rw [if_pos rfl, if_pos rfl]
      have hnext := (ih done input.tail).2
      have hagain := (ih (done ++ [CR]) input.tail).2
      rw [hS] at hnext hagain
      constructor
      · rw [hnext]
        congr 1
        funext r
        rw [hdrop, written, List.append_assoc]
        rfl
      · have hsplit : splitLine (CR :: CR :: S) = (splitLine (CR :: S)).map fun r => (CR :: r.1, r.2) :=
          splitLine_cons (by rintro ⟨-, h⟩; cases h)
        rw [hagain, hsplit, Option.map_map]
        congr 1
        funext r
        simp only [Function.comp_apply, List.length_cons, hdrop, List.append_assoc,
          List.cons_append, List.nil_append, List.drop_succ_cons]
    · have hplain := (ih (done ++ [c]) input.tail).1
      rw [hS] at hplain
      have hsplit : splitLine (c :: S) = (splitLine S).map fun r => (c :: r.1, r.2) :=
        splitLine_cons fun h => hcr h.1
      constructor
      · rw [if_neg hcr, if_neg (by rintro ⟨h, -⟩; cases h), hplain, hsplit, Option.map_map]
        congr 1
        funext r
        simp only [Function.comp_apply, List.length_cons, hdrop, written, List.append_assoc,
          List.cons_append, List.nil_append, List.drop_succ_cons]
      · rw [if_neg hcr]
        by_cases hlf : c = LF
        · subst hlf
          rw [if_pos ⟨rfl, rfl⟩, splitLine_end, Option.map_some, List.dropLast_concat, List.length_append,
            List.length_singleton, List.append_nil, ← List.drop_one]
          rfl
        · have hafter := (ih (done ++ [CR] ++ [c]) input.tail).1
          rw [hS] at hafter
          have hfirst : splitLine (CR :: c :: S) = (splitLine (c :: S)).map fun r => (CR :: r.1, r.2) := by
            refine splitLine_cons ?_
            rintro ⟨-, h⟩
            exact hlf (Option.some.inj h)
          rw [if_neg fun h => hlf h.2, hafter, hfirst, hsplit, Option.map_map, Option.map_map]
          congr 1
          funext r
          simp only [Function.comp_apply, List.length_cons, hdrop, written, List.append_assoc,
            List.cons_append, List.nil_append, List.drop_succ_cons]

theorem receiveLine_eq : receiveLine closes input line = (splitLine (seen closes input line)).map fun r =>
    (r.1.length, input.drop (r.1.length + 2), written r.1 line) :=
  (receiveLineLoop_eq closes [] input line).1

/-- A line of the stream that the array can hold. -/
theorem receiveLine_line (h : splitLine input = some (x, rest)) (hlen : x.length + 2 ≤ line.length) :
    receiveLine closes input line = some (x.length, rest, written x line) := by
  have hseen : ∃ z, splitLine (seen closes input line) = some (x, z) := by
    unfold seen
    split
    · exact splitLine_take (splitLine_append h _) hlen
    · exact splitLine_take h hlen
  obtain ⟨z, hz⟩ := hseen
  have hrest : input.drop (x.length + 2) = rest := by
    rw [splitLine_eq h, List.drop_append, List.drop_of_length_le (Nat.le_add_right _ _),
      show x.length + 2 - x.length = 2 by omega]
    rfl
  rw [receiveLine_eq, hz, Option.map_some, hrest]

/-- The line is one of the stream, or it ends beyond the stream, in what the array has. -/
theorem receiveLine_some (h : receiveLine closes input line = some (n, rest, y)) :
    ∃ x, x.length = n ∧ y = written x line ∧ n + 2 ≤ line.length ∧ (splitLine input = some (x, rest) ∨
      (rest = [] ∧ closes = true ∧ input.length < n + 2 ∧
        ∃ z, splitLine (input ++ line.drop input.length) = some (x, z))) := by
  rw [receiveLine_eq] at h
  obtain ⟨⟨x, z⟩, hsplit, heq⟩ := Option.map_eq_some_iff.mp h
  cases heq
  dsimp only
  have hlong := splitLine_length hsplit
  unfold seen at hsplit hlong
  cases closes with
  | true =>
    have hle := Nat.le_trans hlong (List.length_take_le _ _)
    obtain ⟨z', hall⟩ := splitLine_of_take hsplit
    refine ⟨x, rfl, rfl, hle, ?_⟩
    by_cases hinput : x.length + 2 ≤ input.length
    · exact .inl (splitLine_of_append hall hinput)
    · exact .inr ⟨List.drop_of_length_le (by omega), rfl, by omega, z', hall⟩
  | false =>
    have hle := Nat.le_trans hlong (List.length_take_le _ _)
    have hinput := Nat.le_trans hlong (List.length_take_le' _ _)
    obtain ⟨z', hall⟩ := splitLine_of_take hsplit
    refine ⟨x, rfl, rfl, hle, .inl ?_⟩
    rw [← List.append_nil input] at hall
    exact splitLine_of_append hall hinput

private theorem receiveLineLoop_less {done : Bytes} {cr : Bool}
    (h : receiveLineLoop closes done cr input line = some (n, rest, y)) (hcr : cr = true → done.getLast? = some CR) :
    2 * rest.length + y.count CR < 2 * input.length + (done.count CR + line.count CR) := by
  induction line generalizing done cr input with
  | nil => cases h
  | cons old line ih =>
    rw [receiveLineLoop] at h
    split at h
    · cases h
    dsimp only at h
    have hread : 2 * input.tail.length + ([input.headD old].count CR + line.count CR) ≤
        2 * input.length + (old :: line).count CR := by
      cases input with
      | nil =>
        have happend : ([old] ++ line).count CR = [old].count CR + line.count CR := List.count_append
        exact Nat.le_of_eq (congrArg (2 * 0 + ·) happend.symm)
      | cons b input =>
        have hone : [b].count CR ≤ 1 := List.count_le_length
        have hle : line.count CR ≤ (old :: line).count CR := List.count_le_count_cons
        rw [List.tail_cons, List.headD_cons, List.length_cons]
        omega
    split at h
    next =>
      have hless := ih h fun _ => by rw [List.getLast?_concat]; exact congrArg some ‹_›
      rw [List.count_append] at hless
      omega
    next =>
      split at h
      next hend =>
        cases h
        obtain ⟨init, hinit⟩ := List.getLast?_eq_some_iff.mp (hcr hend.1)
        have hlf : [input.headD old].count CR = 0 := by rw [hend.2]; rfl
        have hcount : done.count CR = init.count CR + 1 := by
          rw [hinit, List.count_append]
          rfl
        have hwritten : (done.dropLast ++ 0 :: input.headD old :: line).count CR = init.count CR + line.count CR := by
          rw [hinit, List.dropLast_concat, hend.2, List.count_append]
          rfl
        omega
      next =>
        have hless := ih h nofun
        rw [List.count_append] at hless
        omega

theorem receiveLine_less (h : receiveLine closes input line = some (n, rest, y)) :
    2 * rest.length + y.count CR < 2 * input.length + line.count CR := by
  have hless := receiveLineLoop_less h nofun
  rwa [List.count_nil, Nat.zero_add] at hless

end

end AfbBinder.WsClient
