import Mathlib.Data.List.Basic
import Mathlib.Order.Basic
import Mathlib.Data.List.Pairwise

/-! NUL-free byte strings and the two comparisons of the C library, by sign. The
locale is the one a program starts in: only the letters A to Z have a lower case. -/
namespace AfbBinder.Lib.Cstrings

abbrev Bytes := List UInt8

def tolower (c : UInt8) : UInt8 := if 65 ≤ c ∧ c ≤ 90 then c + 32 else c

/-- What is before the letters has no other case. -/
theorem tolower_eq_iff {c x : UInt8} (hx : x < 65) : tolower c = x ↔ c = x := by
  unfold tolower
  split
  · next h =>
    obtain ⟨hlo, hhi⟩ := h
    rw [UInt8.le_iff_toNat_le] at hlo hhi
    rw [UInt8.lt_iff_toNat_lt] at hx
    rw [← UInt8.toNat_inj, ← UInt8.toNat_inj, UInt8.toNat_add]
    simp only [UInt8.reduceToNat] at *
    omega
  · rfl

def strcmp (a b : Bytes) : Ordering := compare a b

def strcasecmp (a b : Bytes) : Ordering := compare (a.map tolower) (b.map tolower)

section
variable {a b c : Bytes}

theorem strcasecmp_gt : strcasecmp a b = .gt ↔ strcasecmp b a = .lt := by
  unfold strcasecmp
  exact Std.OrientedCmp.gt_iff_lt

theorem strcmp_gt : strcmp a b = .gt ↔ strcmp b a = .lt := by
  unfold strcmp
  exact Std.OrientedCmp.gt_iff_lt

theorem strcasecmp_eq : strcasecmp a b = .eq ↔ a.map tolower = b.map tolower :=
  Std.LawfulEqOrd.compare_eq_iff_eq

theorem strcmp_eq : strcmp a b = .eq ↔ a = b := Std.LawfulEqOrd.compare_eq_iff_eq

theorem strcasecmp_self : strcasecmp a a = .eq := strcasecmp_eq.mpr rfl

theorem strcasecmp_comm : strcasecmp a b = .eq ↔ strcasecmp b a = .eq := by
  rw [strcasecmp_eq, strcasecmp_eq, eq_comm]

theorem strcasecmp_trans (h1 : strcasecmp a b = .lt) (h2 : strcasecmp b c = .lt) :
    strcasecmp a c = .lt := by
  unfold strcasecmp at *
  exact Std.TransCmp.lt_trans h1 h2

theorem strcasecmp_isLE_trans (h1 : (strcasecmp a b).isLE) (h2 : (strcasecmp b c).isLE) :
    (strcasecmp a c).isLE := by
  unfold strcasecmp at *
  exact Std.TransCmp.isLE_trans h1 h2

theorem strcasecmp_isLE_total : (strcasecmp a b).isLE || (strcasecmp b a).isLE := by
  cases h : strcasecmp a b with
  | lt => rfl
  | eq => rfl
  | gt =>
    rw [strcasecmp_gt.mp h]
    rfl

theorem strcmp_trans (h1 : strcmp a b = .lt) (h2 : strcmp b c = .lt) : strcmp a c = .lt := by
  unfold strcmp at *
  exact Std.TransCmp.lt_trans h1 h2

/-- Names equal but for the case compare alike with any other name. -/
theorem strcasecmp_congr_right (h : strcasecmp b c = .eq) : strcasecmp a b = strcasecmp a c := by
  rw [strcasecmp, strcasecmp, strcasecmp_eq.mp h]

end

end AfbBinder.Lib.Cstrings
