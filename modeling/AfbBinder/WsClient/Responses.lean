import Mathlib.Algebra.BigOperators.Group.List.Basic
import Mathlib.Algebra.Ring.Nat
import AfbBinder.WsClient.Headers

/-! The responses that receive_response reads to their end. -/
namespace AfbBinder.WsClient
open Lib.Cstrings Lib.CrLf Lib.Loops
open Lib.Json (ascii)

/-- An array that does not begin as an empty line does: so it is once a line was put in it. -/
def Fresh (line : Bytes) : Prop := line.length = LINESIZE ∧ line.take 2 ≠ [CR, LF]

/-- The second byte of the line is a LF. -/
def secondLf (x : Bytes) : Bool := x[1]? = some LF

/-- The lines that are read, up to an empty one. The LF of the empty line can be the one that the array
has second, when the stream ends before it. -/
inductive Scans (closes : Bool) : Bool → Bytes → List Bytes → Bytes → Prop
  | last {lf : Bool} {input after : Bytes} (h : splitLine input = some ([], after)) : Scans closes lf input [] after
  | torn (h : closes = true) : Scans closes true [CR] [] []
  | line {lf : Bool} {input x rest after : Bytes} {ls : List Bytes} (h : splitLine input = some (x, rest)) (hx : x ≠ [])
    (hlen : x.length + 2 ≤ LINESIZE) (ht : Scans closes (secondLf x) rest ls after) :
    Scans closes lf input (x :: ls) after

section
variable {closes lf : Bool} {input line x y rest after : Bytes} {ls protocols : List Bytes} {ack : Bytes} {n : Nat}
  {s t : Reading}

theorem Scans.nonempty (h : Scans closes lf input ls after) : input ≠ [] := by
  rintro rfl
  cases h with
  | last h => cases h
  | line h _ _ _ => cases h

/-! The array after a line. -/

private theorem written_length (h : x.length + 2 ≤ line.length) : (written x line).length = line.length := by
  rw [written, List.length_append, List.length_cons, List.length_cons, List.length_drop]
  omega

theorem written_second (line : Bytes) (hx : x ≠ []) : secondLf (written x line) = secondLf x := by
  cases x with
  | nil => exact absurd rfl hx
  | cons b x => cases x <;> rfl

theorem fresh_written (h : splitLine input = some (x, rest)) (hx : x ≠ []) (hlen : x.length + 2 ≤ line.length)
    (hline : line.length = LINESIZE) : Fresh (written x line) := by
  refine ⟨(written_length hlen).trans hline, fun hbreaks => ?_⟩
  cases x with
  | nil => exact hx rfl
  | cons b x =>
    cases x with
    | nil => cases hbreaks
    | cons c x =>
      cases hbreaks
      have hself := splitLine_self h rest
      cases hself.symm.trans (splitLine_end _)

private theorem cString_ended (x y : Bytes) : cString (x ++ 0 :: y) = cString x := by
  unfold cString
  induction x with
  | nil => rfl
  | cons b x ih => rw [List.cons_append, List.takeWhile_cons, List.takeWhile_cons, ih]

theorem cString_written : cString (written x line) = cString x := cString_ended x _

private theorem two_le_valueStart (h : hasHeader x = true) (n : Nat) : 2 ≤ valueStart x + n := by
  obtain ⟨hne, -⟩ := of_decide_eq_true h
  have hpos := Nat.pos_of_ne_zero hne
  unfold valueStart
  omega

private theorem cutValue_second : secondLf (cutValue line) = secondLf line := by
  unfold secondLf cutValue
  dsimp only
  split_ifs with h
  · rw [List.getElem?_set_ne (Nat.ne_of_gt (two_le_valueStart h _))]
  · rfl

private theorem fresh_cutValue (h : Fresh line) : Fresh (cutValue line) := by
  unfold cutValue
  dsimp only
  split_ifs with hhas
  · refine ⟨(List.length_set).trans h.1, ?_⟩
    rw [List.take_set_of_le (two_le_valueStart hhas _)]
    exact h.2
  · exact h

/-! One iteration of the loop over the lines. -/

private theorem headerStep_line (h : splitLine s.input = some (x, rest)) (hx : x ≠ [])
    (hlen : x.length + 2 ≤ s.line.length) :
    headerStep closes protocols ack s =
      .ok (.inl ⟨rest, cutValue (written x s.line), s.vars.scan protocols ack (cString x)⟩) := by
  have hpos : x.length ≠ 0 := fun h => hx (List.length_eq_zero_iff.mp h)
  rw [headerStep, receiveLine_line h hlen]
  dsimp only
  rw [if_neg hpos, cString_written]

/-- An iteration that goes on has read a line, or it leaves nothing to read. -/
theorem headerStep_next (h : headerStep closes protocols ack s = .ok (.inl t)) (hline : Fresh s.line) :
    Fresh t.line ∧ (t.input = [] ∨ ∃ x, splitLine s.input = some (x, t.input) ∧ x ≠ [] ∧
      x.length + 2 ≤ LINESIZE ∧ secondLf t.line = secondLf x ∧ t.vars = s.vars.scan protocols ack (cString x)) := by
  rw [headerStep] at h
  split at h
  · cases h
  next n rest y hreceived =>
    split at h
    · cases h
    next hpos =>
      cases h
      obtain ⟨x, rfl, rfl, hlen, hstream⟩ := receiveLine_some hreceived
      have hx : x ≠ [] := fun hnil => hpos (by rw [hnil]; rfl)
      dsimp only
      rcases hstream with hsplit | ⟨hrest, -, -, z, hsplit⟩
      · have hfresh := fresh_written hsplit hx hlen hline.1
        refine ⟨fresh_cutValue hfresh, .inr ⟨x, hsplit, hx, hline.1 ▸ hlen, ?_, ?_⟩⟩
        · rw [cutValue_second, written_second _ hx]
        · rw [cString_written]
      · have hfresh := fresh_written hsplit hx hlen hline.1
        exact ⟨fresh_cutValue hfresh, .inl hrest⟩

/-- The iteration that ends the loop has read an empty line. -/
theorem headerStep_done (h : headerStep closes protocols ack s = .ok (.inr t)) (hline : Fresh s.line) :
    t.vars = s.vars ∧ Scans closes (secondLf s.line) s.input [] t.input := by
  rw [headerStep] at h
  split at h
  · cases h
  next n rest y hreceived =>
    split at h
    next hzero =>
      cases h
      refine ⟨rfl, ?_⟩
      dsimp only
      obtain ⟨x, hx, -, -, hstream⟩ := receiveLine_some hreceived
      have hx := List.length_eq_zero_iff.mp (hx.trans hzero)
      subst hx
      rcases hstream with hsplit | ⟨rfl, hcloses, hshort, z, hsplit⟩
      · exact .last hsplit
      · have heq := splitLine_eq hsplit
        match hinput : s.input with
        | [] =>
          rw [hinput] at heq
          exact absurd (congrArg (List.take 2) heq) hline.2
        | [b] =>
          rw [hinput] at heq
          obtain ⟨hcr, hrest⟩ := List.cons.inj heq
          have hlf : s.line[1]? = some LF := by
            rw [← List.head?_drop]
            exact congrArg List.head? hrest
          rw [hcr, show secondLf s.line = true from decide_eq_true hlf]
          exact .torn hcloses
        | _ :: _ :: _ =>
          rw [hinput, List.length_cons, List.length_cons] at hshort
          omega
    · cases h

/-- The stream ends after the CR, and the array has the LF. -/
theorem receiveLine_torn (h : secondLf line = true) : ∃ y, receiveLine true [CR] line = some (0, [], y) := by
  match line with
  | [] => cases h
  | [_] => cases h
  | a :: b :: z =>
    cases of_decide_eq_true h
    have hseen : seen true [CR] (a :: LF :: z) = CR :: LF :: z.take z.length := rfl
    rw [receiveLine_eq, hseen, splitLine_end]
    exact ⟨_, rfl⟩

/-! The loop over the lines. -/

theorem scans_of_ends {r : Except Unit Reading} (h : Ends (headerStep closes protocols ack) s r) (hr : r = .ok t)
    (hline : Fresh s.line) : ∃ ls, Scans closes (secondLf s.line) s.input ls t.input ∧
      t.vars = scanned protocols ack s.vars ls := by
  induction h with
  | next h _ ih =>
    obtain ⟨hfresh, hnext⟩ := headerStep_next h hline
    obtain ⟨ls, hscans, hvars⟩ := ih hr hfresh
    rcases hnext with hnil | ⟨x, hsplit, hx, hlen, hsecond, hscan⟩
    · exact absurd hnil hscans.nonempty
    · refine ⟨x :: ls, .line hsplit hx hlen ?_, ?_⟩
      · rwa [hsecond] at hscans
      · rw [hvars, hscan]
        rfl
  | done h =>
    cases hr
    obtain ⟨hvars, hscans⟩ := headerStep_done h hline
    exact ⟨[], hscans, hvars⟩
  | error h => cases hr

theorem ends_of_scans (protocols : List Bytes) (ack : Bytes) (h : Scans closes lf input ls after)
    (hline : Fresh s.line) (hlf : lf = secondLf s.line) (hinput : s.input = input) :
    ∃ t, Ends (headerStep closes protocols ack) s (.ok t) ∧ t.input = after ∧
      t.vars = scanned protocols ack s.vars ls := by
  induction h generalizing s with
  | @last _ _ after h =>
    subst hinput
    have hroom : ([] : Bytes).length + 2 ≤ s.line.length := by
      rw [hline.1]
      decide
    have hstep : headerStep closes protocols ack s = .ok (.inr ⟨after, written [] s.line, s.vars⟩) := by
      rw [headerStep, receiveLine_line h hroom]
      rfl
    exact ⟨_, .done hstep, rfl, rfl⟩
  | torn h =>
    obtain ⟨y, hreceived⟩ := receiveLine_torn hlf.symm
    have hstep : headerStep closes protocols ack s = .ok (.inr ⟨[], y, s.vars⟩) := by
      rw [headerStep, h, hinput, hreceived]
      rfl
    exact ⟨_, .done hstep, rfl, rfl⟩
  | @line _ _ x _ _ _ h hx hlen _ ih =>
    subst hinput
    have hroom := hline.1.symm ▸ hlen
    have hfresh := fresh_cutValue (fresh_written h hx hroom hline.1)
    have hsecond : secondLf (cutValue (written x s.line)) = secondLf x := by rw [cutValue_second, written_second _ hx]
    obtain ⟨t, hends, hafter, hvars⟩ :=
      ih (s := ⟨_, _, s.vars.scan protocols ack (cString x)⟩) hfresh hsecond.symm rfl
    exact ⟨t, .next (headerStep_line h hx hroom) hends, hafter, hvars⟩

/-! The loop ends, each iteration with less to read. -/

def Reading.size (s : Reading) : Nat := 2 * s.input.length + s.line.count CR

private theorem count_cutValue_le (line : Bytes) : (cutValue line).count CR ≤ line.count CR := by
  unfold cutValue
  dsimp only
  split_ifs
  · generalize valueStart (cString line) + (value (cString line)).length = i
    by_cases hi : i < line.length
    · rw [List.count_set hi]
      exact Nat.sub_le _ _
    · exact Nat.le_of_eq (congrArg (List.count CR) (List.set_eq_of_length_le (Nat.not_lt.mp hi)))
  · exact Nat.le_refl _

theorem headerStep_less (s t : Reading) (h : headerStep closes protocols ack s = .ok (.inl t)) : t.size < s.size := by
  rw [headerStep] at h
  split at h
  · cases h
  next hreceived =>
    split at h
    · cases h
    next =>
      cases h
      have hless := receiveLine_less hreceived
      have hcut := count_cutValue_le
      unfold Reading.size
      dsimp only
      exact Nat.lt_of_le_of_lt (Nat.add_le_add_left (hcut _) _) hless

theorem size_lt (hline : s.line.length = LINESIZE) : s.size < 2 * s.input.length + LINESIZE + 1 := by
  have hcount : s.line.count CR ≤ LINESIZE := hline ▸ List.count_le_length
  unfold Reading.size
  omega

/-! The body. -/

/-- The bytes that the reads of the body ask for, less those that are not at hand. -/
def offered (more : Nat → Nat) (clen len : Nat) : Nat :=
  ((List.range (clen / LINESIZE)).map fun k => min LINESIZE (more k + 1)).sum +
    if 0 < clen % LINESIZE then min len (more (clen / LINESIZE) + 1) else 0

private theorem skipLoop_eq (more : Nat → Nat) (count k : Nat) (input : Bytes) : skipLoop more count k input =
    input.drop ((List.range count).map fun i => min LINESIZE (more (k + i) + 1)).sum := by
  induction count generalizing k input with
  | zero => rfl
  | succ count ih =>
    rw [skipLoop, ih, List.drop_drop, List.range_succ_eq_map, List.map_cons, List.map_map, List.sum_cons]
    have hnext : (fun i => min LINESIZE (more (k + i) + 1)) ∘ Nat.succ =
        fun i => min LINESIZE (more (k + 1 + i) + 1) := by
      funext i
      rw [Function.comp_apply, Nat.succ_eq_add_one, Nat.add_comm i 1, Nat.add_assoc]
    rw [hnext]
    rfl

theorem skipBody_eq (more : Nat → Nat) (clen len : Nat) (input : Bytes) :
    skipBody more clen len input = input.drop (offered more clen len) := by
  unfold skipBody offered
  dsimp only
  rw [skipLoop_eq]
  simp only [Nat.zero_add]
  split
  · rw [List.drop_drop]
  · rw [Nat.add_zero]

end

end AfbBinder.WsClient
