import Mathlib.Data.Nat.Init
import Mathlib.Tactic.Common

/-! Dichotomic search of an index by a three-way test of the middle one. -/
namespace AfbBinder.Lib.Bsearch

/-- One iteration a unit of fuel; the width of the slice is fuel enough. -/
def bsearch (f : Nat → Ordering) : Nat → Nat → Nat → Option Nat
  | 0, _, _ => none
  | fuel + 1, lo, up =>
    if lo < up then
      match f ((lo + up) / 2) with
      | .eq => some ((lo + up) / 2)
      | .lt => bsearch f fuel ((lo + up) / 2 + 1) up
      | .gt => bsearch f fuel lo ((lo + up) / 2)
    else none

theorem bsearch_sound {f : Nat → Ordering} {fuel lo up i : Nat}
    (h : bsearch f fuel lo up = some i) : lo ≤ i ∧ i < up ∧ f i = .eq := by
  induction fuel generalizing lo up with
  | zero => cases h
  | succ fuel ih =>
    rw [bsearch] at h
    split_ifs at h with hlt
    split at h
    · cases h
      rename_i he
      exact ⟨by omega, by omega, he⟩
    · obtain ⟨h1, h2, h3⟩ := ih h
      exact ⟨by omega, h2, h3⟩
    · obtain ⟨h1, h2, h3⟩ := ih h
      exact ⟨h1, by omega, h3⟩

/-- On a test that grows with the index the one match of the slice is found. -/
theorem bsearch_complete {f : Nat → Ordering} {fuel lo up k : Nat} (hfuel : up - lo ≤ fuel)
    (hlt : ∀ i, lo ≤ i → i < k → f i = .lt) (hgt : ∀ i, k < i → i < up → f i = .gt)
    (hk : f k = .eq) (hlo : lo ≤ k) (hup : k < up) : bsearch f fuel lo up = some k := by
  induction fuel generalizing lo up with
  | zero => omega
  | succ fuel ih =>
    rw [bsearch, if_pos (by omega)]
    rcases Nat.lt_trichotomy ((lo + up) / 2) k with hm | hm | hm
    · rw [hlt _ (by omega) hm]
      exact ih (by omega) (fun i hi => hlt i (by omega)) hgt (by omega) hup
    · rw [hm, hk]
    · rw [hgt _ hm (by omega)]
      exact ih (by omega) hlt (fun i hi hu => hgt i hi (by omega)) hlo hm

/-- With several matches in a row one of them is found. -/
theorem bsearch_exists {f : Nat → Ordering} {fuel lo up k : Nat} (hfuel : up - lo ≤ fuel)
    (hlt : ∀ i j, i ≤ j → j < up → f j = .lt → f i = .lt)
    (hgt : ∀ i j, i ≤ j → j < up → f i = .gt → f j = .gt) (hk : f k = .eq) (hlo : lo ≤ k) (hup : k < up) :
    ∃ i, bsearch f fuel lo up = some i := by
  induction fuel generalizing lo up with
  | zero => omega
  | succ fuel ih =>
    rw [bsearch, if_pos (by omega)]
    cases hm : f ((lo + up) / 2) with
    | eq => exact ⟨_, rfl⟩
    | lt =>
      have hafter : (lo + up) / 2 < k := by
        by_contra hle
        exact absurd (hlt k _ (Nat.le_of_not_lt hle) (by omega) hm) (by rw [hk]; decide)
      exact ih (by omega) hlt hgt (by omega) hup
    | gt =>
      have hbefore : k < (lo + up) / 2 := by
        by_contra hle
        exact absurd (hgt _ k (Nat.le_of_not_lt hle) hup hm) (by rw [hk]; decide)
      exact ih (by omega) (fun i j hij hj => hlt i j hij (by omega)) (fun i j hij hj => hgt i j hij (by omega)) hlo
        hbefore

end AfbBinder.Lib.Bsearch
