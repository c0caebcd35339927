import Mathlib.Data.List.Basic
import Mathlib.Data.List.Pairwise

/-! An element put in a list behind all those that come before it or are its equals. -/
namespace AfbBinder.Lib.Insertions

def insertAfter {α : Type} (before : α → α → Bool) (x : α) : List α → List α
  | [] => [x]
  | y :: l => if before y x then y :: insertAfter before x l else x :: y :: l

section
variable {α : Type} {before : α → α → Bool} {p : α → Bool} {x y : α} {l : List α}

private theorem mem_insertAfter : y ∈ insertAfter before x l ↔ y = x ∨ y ∈ l := by
  induction l with
  | nil => simp [insertAfter]
  | cons z l ih =>
    rw [insertAfter]
    split
    · rw [List.mem_cons, ih, List.mem_cons]
      exact or_left_comm
    · rw [List.mem_cons]

theorem pairwise_insertAfter (htotal : ∀ a b, before a b = false → before b a = true)
    (htrans : ∀ a b c, before a b = true → before b c = true → before a c = true)
    (h : l.Pairwise fun a b => before a b = true) :
    (insertAfter before x l).Pairwise fun a b => before a b = true := by
  induction l with
  | nil => exact List.pairwise_singleton _ _
  | cons z l ih =>
    obtain ⟨hz, hl⟩ := List.pairwise_cons.mp h
    rw [insertAfter]
    split
    · rename_i hzx
      refine List.pairwise_cons.mpr ⟨fun a ha => ?_, ih hl⟩
      rcases mem_insertAfter.mp ha with rfl | ha
      · exact hzx
      · exact hz a ha
    · rename_i hzx
      have hxz := htotal z x (by simpa using hzx)
      refine List.pairwise_cons.mpr ⟨fun a ha => ?_, h⟩
      rcases List.mem_cons.mp ha with rfl | ha
      · exact hxz
      · exact htrans x z a hxz (hz a ha)

/-- Among its equals the element comes last. -/
theorem filter_insertAfter (htrans : ∀ a b c, before a b = true → before b c = true → before a c = true)
    (hclass : ∀ a b, p a = true → p b = true → before a b = true)
    (h : l.Pairwise fun a b => before a b = true) :
    (insertAfter before x l).filter p = l.filter p ++ [x].filter p := by
  induction l with
  | nil => rfl
  | cons z l ih =>
    obtain ⟨hz, hl⟩ := List.pairwise_cons.mp h
    rw [insertAfter]
    split
    · rw [List.filter_cons, List.filter_cons, ih hl]
      split
      · rfl
      · rfl
    · rename_i hzx
      cases hx : p x with
      | false =>
        rw [List.filter_cons_of_neg (by simp [hx]), List.filter_cons_of_neg (l := []) (by simp [hx])]
        exact (List.append_nil _).symm
      | true =>
        -- nothing of its class is behind it
        have hnone : (z :: l).filter p = [] := by
          refine List.filter_eq_nil_iff.mpr fun a ha hpa => hzx ?_
          rcases List.mem_cons.mp ha with rfl | ha
          · exact hclass a x hpa hx
          · exact htrans z a x (hz a ha) (hclass a x hpa hx)
        rw [List.filter_cons_of_pos hx, hnone, List.filter_cons_of_pos hx]
        rfl

end

end AfbBinder.Lib.Insertions
