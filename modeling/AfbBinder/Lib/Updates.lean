import Mathlib.Algebra.BigOperators.Fin
import Mathlib.Data.Set.Card
import Mathlib.Logic.Function.Basic

/-! Memories as functions of an address, rewritten at one address. -/
namespace AfbBinder.Lib.Updates

/-- A rewrite that leaves a part of the item alone leaves that part of every item alone. -/
theorem update_field {ι β γ : Type*} [DecidableEq ι] (f : ι → β) (i j : ι) {v : β} (g : β → γ)
    (h : g v = g (f i)) : g (Function.update f i v j) = g (f j) := by
  by_cases hj : j = i
  · rw [hj, Function.update_self, h]
  · rw [Function.update_of_ne hj]

/-- A rewrite changes a sum over the memory by the difference at its address. -/
theorem sum_update {ι β : Type*} [Fintype ι] [DecidableEq ι] (f : ι → β) (g : β → Nat) (i : ι)
    (v : β) : ∑ j, g (Function.update f i v j) + g (f i) = ∑ j, g (f j) + g v := by
  have hrest : ∑ j ∈ Finset.univ.erase i, g (Function.update f i v j) =
      ∑ j ∈ Finset.univ.erase i, g (f j) :=
    Finset.sum_congr rfl fun j hj => by rw [Function.update_of_ne (Finset.ne_of_mem_erase hj)]
  rw [← Finset.add_sum_erase _ _ (Finset.mem_univ i), hrest,
    ← Finset.add_sum_erase _ (fun j => g (f j)) (Finset.mem_univ i), Function.update_self]
  omega

section
variable {ι β : Type*} [DecidableEq ι] {f : ι → β} {p : β → Bool}

/-- The addresses that hold the property, less one of them. -/
theorem ncard_apart (h : {j | p (f j) = true}.Finite) (i : ι) :
    {j | p (f j) = true}.ncard = {j | j ≠ i ∧ p (f j) = true}.ncard + (p (f i)).toNat := by
  cases hp : p (f i) with
  | false =>
    have hsame : {j | p (f j) = true} = {j | j ≠ i ∧ p (f j) = true} := by
      ext j
      refine ⟨fun hj => ⟨fun he => ?_, hj⟩, And.right⟩
      rw [Set.mem_ofPred_eq, he, hp] at hj
      cases hj
    rw [← hsame, Bool.toNat_false, Nat.add_zero]
  | true =>
    have hinsert : {j | p (f j) = true} = insert i {j | j ≠ i ∧ p (f j) = true} := by
      ext j
      by_cases hj : j = i <;> simp [hj, hp]
    rw [hinsert, Set.ncard_insert_of_notMem (by simp) (h.subset fun j hj => hj.2), Bool.toNat_true]

theorem finite_update (h : {j | p (f j) = true}.Finite) (i : ι) (v : β) :
    {j | p (Function.update f i v j) = true}.Finite := by
  refine (h.insert i).subset fun j hj => ?_
  by_cases hji : j = i
  · exact .inl hji
  · rw [Set.mem_ofPred_eq, Function.update_of_ne hji] at hj
    exact .inr hj

/-- A rewrite changes the count of the items that have a property by what it does to its own. -/
theorem ncard_update (h : {j | p (f j) = true}.Finite) (i : ι) (v : β) :
    {j | p (Function.update f i v j) = true}.ncard + (p (f i)).toNat =
      {j | p (f j) = true}.ncard + (p v).toNat := by
  have hrest : {j | j ≠ i ∧ p (Function.update f i v j) = true} = {j | j ≠ i ∧ p (f j) = true} := by
    ext j
    exact and_congr_right fun hj => by rw [Function.update_of_ne hj]
  rw [ncard_apart (finite_update h i v) i, ncard_apart h i, hrest, Function.update_self]
  exact Nat.add_right_comm _ _ _

end

end AfbBinder.Lib.Updates
