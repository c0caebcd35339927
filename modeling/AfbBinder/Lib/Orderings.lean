import Mathlib.Order.Compare
import Mathlib.Tactic.Cases

/-! Lexicographic compositions of comparisons, told by their results. -/
namespace AfbBinder.Lib.Orderings

theorem compare_swap {α : Type*} [Ord α] [Std.OrientedOrd α] (a b : α) :
    compare b a = (compare a b).swap := Std.OrientedCmp.eq_swap

/-- Of two comparisons in a row of which none is greater, the third is their composition. -/
def Composes (o₁ o₂ o₃ : Ordering) : Prop := o₁ ≠ .gt → o₂ ≠ .gt → o₃ = o₁.then o₂

theorem composes_cmp {α : Type*} (cmp : α → α → Ordering) [Std.TransCmp cmp] (a b c : α) :
    Composes (cmp a b) (cmp b c) (cmp a c) := by
  intro hab hbc
  cases h : cmp a b with
  | lt =>
    have hle : (cmp b c).isLE := Ordering.isLE_iff_ne_gt.mpr hbc
    exact Std.TransCmp.lt_of_lt_of_isLE h hle
  | eq => exact Std.TransCmp.congr_left h
  | gt => exact absurd h hab

theorem Composes.lex {a₁ a₂ a₃ b₁ b₂ b₃ : Ordering} (ha : Composes a₁ a₂ a₃)
    (hb : a₁ = .eq → a₂ = .eq → Composes b₁ b₂ b₃) :
    Composes (a₁.then b₁) (a₂.then b₂) (a₃.then b₃) := by
  intro h₁ h₂
  cases a₁ with
  | gt => exact absurd rfl h₁
  | lt =>
    have h₃ : a₃ = .lt := ha (by decide) fun h => h₂ (by rw [h]; rfl)
    rw [h₃]
    rfl
  | eq =>
    cases a₂ with
    | gt => exact absurd rfl h₂
    | lt =>
      have h₃ : a₃ = .lt := ha (by decide) (by decide)
      rw [h₃]
      cases b₁ with
      | gt => exact absurd rfl h₁
      | lt => rfl
      | eq => rfl
    | eq =>
      have h₃ : a₃ = .eq := ha (by decide) (by decide)
      rw [h₃]
      exact hb rfl rfl h₁ h₂

/-! A comparison that decides alone, on either side. -/

theorem composes_right {o k : Ordering} (hk : k ≠ .eq) : Composes o k k := by
  intro ho hk'
  cases k with
  | eq => exact absurd rfl hk
  | gt => exact absurd rfl hk'
  | lt =>
    cases o with
    | gt => exact absurd rfl ho
    | lt => rfl
    | eq => rfl

theorem composes_left {o k : Ordering} (hk : k ≠ .eq) : Composes k o k := by
  intro hk' _
  cases k with
  | eq => exact absurd rfl hk
  | gt => exact absurd rfl hk'
  | lt => rfl

theorem composes_swap {o k : Ordering} (hk : k ≠ .eq) : Composes k k.swap o := by
  intro hk' hs
  cases k with
  | eq => exact absurd rfl hk
  | gt => exact absurd rfl hk'
  | lt => exact absurd rfl hs

/-- A list whose items are none greater than those of another comes before it. -/
theorem compare_lists {α : Type*} [Ord α] [Std.LawfulEqOrd α] {xs ys : List α}
    (hle : ∀ a ∈ xs, ∀ b ∈ ys, compare a b ≠ .gt) (hlen : xs.length = ys.length) (hne : xs ≠ ys) :
    compare xs ys = .lt := by
  induction xs generalizing ys with
  | nil => exact absurd (List.length_eq_zero_iff.mp hlen.symm).symm hne
  | cons x xs ih =>
    obtain - | ⟨y, ys⟩ := ys
    · cases hlen
    rw [List.compare_cons_cons]
    cases h : compare x y with
    | lt => rfl
    | gt => exact absurd h (hle x List.mem_cons_self y List.mem_cons_self)
    | eq =>
      have hxy := Std.LawfulEqOrd.eq_of_compare h
      exact ih (fun a ha b hb => hle a (List.mem_cons_of_mem _ ha) b (List.mem_cons_of_mem _ hb))
        (Nat.succ.inj hlen) fun hsame => hne (by rw [hxy, hsame])

end AfbBinder.Lib.Orderings
