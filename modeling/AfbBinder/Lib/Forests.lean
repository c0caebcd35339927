import Mathlib.Data.List.Basic
import Mathlib.Logic.Relation

/-! Forests that are kept as lists: an element may name the place of its parent, and a parent
stands before its children. -/
namespace AfbBinder.Lib.Forests
variable {α : Type*} {parent : α → Option Nat} {p : α → Bool} {l : List α} {i c : Nat} {a b : α}

/-- A parent stands before its children. -/
def Earlier (parent : α → Option Nat) (l : List α) : Prop :=
  ∀ i a, l[i]? = some a → ∀ c, parent a = some c → c < i

/-- The first place is that of a child of the second one. -/
def Child (parent : α → Option Nat) (l : List α) (i c : Nat) : Prop := ∃ a, l[i]? = some a ∧ parent a = some c

/-- The second place is on the way from the first one to its root. -/
def Below (parent : α → Option Nat) (l : List α) : Nat → Nat → Prop := Relation.TransGen (Child parent l)

/-- What holds of a place when it holds of its children holds of every place. -/
theorem children_induction (h : Earlier parent l) {P : Nat → Prop}
    (hstep : ∀ i, (∀ j, Child parent l j i → P j) → P i) (i : Nat) : P i := by
  induction hn : l.length - i using Nat.strongRecOn generalizing i with
  | _ n ih =>
    refine hstep i fun j hj => ?_
    obtain ⟨a, ha, hp⟩ := hj
    have hlt := h j a ha i hp
    obtain ⟨hlen, -⟩ := List.getElem?_eq_some_iff.mp ha
    exact ih (l.length - j) (by omega) j rfl

/-- What holds of a place at one step above holds at every step above. -/
theorem below_up {P : Nat → Prop} (h : ∀ i c, Child parent l i c → P c → P i) (hb : Below parent l i c)
    (hc : P c) : P i := by
  induction hb using Relation.TransGen.head_induction_on with
  | single h' => exact h _ _ h' hc
  | head h' _ ih => exact h _ _ h' ih

/-! The way to the root. -/

/-- The elements from a place to its root, at most so many. -/
def walk (parent : α → Option Nat) (l : List α) : Nat → Option Nat → List α
  | 0, _ => []
  | _ + 1, none => []
  | n + 1, some c => l[c]?.elim [] fun a => a :: walk parent l n (parent a)

theorem walk_none (n : Nat) : walk parent l n none = [] := by
  cases n <;> rfl

/-- More steps than the place counts change nothing. -/
theorem walk_enough (h : Earlier parent l) {n : Nat} (hn : c < n) :
    walk parent l n (some c) = walk parent l (c + 1) (some c) := by
  induction c using Nat.strongRecOn generalizing n with
  | _ c ih =>
    obtain ⟨n, rfl⟩ := Nat.exists_eq_succ_of_ne_zero (Nat.ne_zero_of_lt hn)
    rw [walk, walk]
    cases ha : l[c]? with
    | none => rfl
    | some a =>
      rw [Option.elim_some, Option.elim_some]
      cases hp : parent a with
      | none => rw [walk_none, walk_none]
      | some d =>
        have hlt := h c a ha d hp
        rw [ih d hlt (Nat.lt_of_lt_of_le hlt (Nat.lt_succ_iff.mp hn)), ih d hlt hlt]

/-! The children that satisfy a condition. -/

/-- How many children of the place satisfy the condition. -/
def children (parent : α → Option Nat) (p : α → Bool) (l : List α) (c : Nat) : Nat :=
  l.countP fun a => p a && parent a = some c

theorem children_pos : 0 < children parent p l c ↔ ∃ a ∈ l, p a = true ∧ parent a = some c := by
  simp [children, List.countP_pos_iff]

section
variable (parent p)

theorem children_append (l : List α) (a : α) (c : Nat) :
    children parent p (l ++ [a]) c = children parent p l c + if p a ∧ parent a = some c then 1 else 0 := by
  simp [children, List.countP_append, List.countP_singleton]

/-- An element is replaced: what it counted for is replaced by what the new one counts for. -/
theorem children_set (h : l[i]? = some a) (b : α) (c : Nat) :
    children parent p (l.set i b) c + (if p a ∧ parent a = some c then 1 else 0) =
      children parent p l c + if p b ∧ parent b = some c then 1 else 0 := by
  obtain ⟨hi, ha⟩ := List.getElem?_eq_some_iff.mp h
  have hpos : (p a && decide (parent a = some c)) = true → 0 < children parent p l c := fun hpa =>
    List.countP_pos_iff.mpr ⟨a, List.mem_of_getElem? h, hpa⟩
  unfold children at hpos ⊢
  rw [List.countP_set hi, ha]
  simp only [Bool.and_eq_true, decide_eq_true_eq] at hpos ⊢
  by_cases hpa : p a = true ∧ parent a = some c
  · have hone := hpos hpa
    rw [if_pos hpa]
    omega
  · rw [if_neg hpa]
    omega

theorem children_set_same (h : l[i]? = some a) (hp : p b = p a) (hb : parent b = parent a) (c : Nat) :
    children parent p (l.set i b) c = children parent p l c := by
  have hset := children_set parent p h b c
  rw [hp, hb] at hset
  exact Nat.add_right_cancel hset

end

end AfbBinder.Lib.Forests
