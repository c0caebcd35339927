import AfbBinder.Lib.Checked
import AfbBinder.Lib.Loops

/-! The masks of the levels of log and the verbosities. -/
namespace AfbBinder.Verbose
open Lib.Checked Lib.Loops

def Log_Level_Emergency : Int32 := 0
def Log_Level_Error : Int32 := 3
def Log_Level_Debug : Int32 := 7

def MINIMAL_LOGMASK : Int32 := (1 <<< (Log_Level_Error + 1)) - 1

/-- CROP_LOGLEVEL -/
def cropLoglevel (x : Int32) : Int32 :=
  if x < Log_Level_Emergency then Log_Level_Emergency
  else if Log_Level_Debug < x then Log_Level_Debug
  else x

/-- What C gives no meaning to: a sum that is not in the range of int. -/
inductive Fault where
  | overflow
  deriving DecidableEq, Repr

/-- A sum of ints. -/
def add (a b : Int32) : Except Fault Int32 :=
  if (a + b).toInt = a.toInt + b.toInt then .ok (a + b) else .error .overflow

def verbosityToMask (verbo : Int32) : Except Fault Int32 :=
  (add verbo Log_Level_Error).map fun x => (1 <<< (cropLoglevel x + 1)) - 1

/-- An iteration of verbosity_from_mask, with the value of v. -/
def verbosityFromMaskStep (mask v : Int32) : Except Fault (Int32 ⊕ Int32) :=
  (verbosityToMask v).bind fun m => if m < mask then (add v 1).map .inl else .ok (.inr v)

/-- The loop of verbosity_from_mask, that goes on at most once for each value of v. -/
def verbosityFromMask (mask : Int32) : Option (Except Fault Int32) :=
  iterate (verbosityFromMaskStep mask) 2147483648 0

/-- The new value of the variable logmask. -/
def setLogmask (lvl : Int32) : Int32 := lvl ||| MINIMAL_LOGMASK

def verbosityGet (logmask : Int32) : Option (Except Fault Int32) := verbosityFromMask logmask

inductive ApiVersion where
  | none
  | v1
  | v2
  | v3
  deriving DecidableEq, Repr

/-- An exported API: its mask, and the verbosity that the bindings of the first versions read. -/
structure Export where
  version : ApiVersion
  logmask : Int32
  verbosity : Int32
  deriving DecidableEq, Repr

def afbExportLogmaskSet (e : Export) (mask : Int32) : Option (Except Fault Export) :=
  let e := { e with logmask := mask }
  match e.version with
  | .v1 | .v2 => (verbosityFromMask mask).map fun r => r.map fun v => { e with verbosity := v }
  | .none | .v3 => some (.ok e)

/-! What a verbosity from a mask is to be. -/

/-- The mask of the verbosity is at least this one. -/
def Reaches (v mask : Int32) : Prop := ∃ m, verbosityToMask v = .ok m ∧ mask ≤ m

/-- The highest verbosity, that is the one of the level debug. -/
def highest : Int32 := Log_Level_Debug - Log_Level_Error

/-- The least non-negative verbosity whose mask is at least the given one, or the highest one. -/
structure Fits (mask v : Int32) : Prop where
  nonneg : 0 ≤ v
  least : (∃ u, 0 ≤ u ∧ Reaches u mask) → Reaches v mask ∧ ∀ u, 0 ≤ u → Reaches u mask → v ≤ u
  last : (¬ ∃ u, 0 ≤ u ∧ Reaches u mask) → v = highest

section
variable {mask u v m w r : Int32}

theorem add_ok {a b c : Int32} : add a b = .ok c ↔ c = a + b ∧ c.toInt = a.toInt + b.toInt := by
  unfold add
  split
  next h =>
    constructor
    · rintro ⟨⟩
      exact ⟨rfl, h⟩
    · rintro ⟨rfl, -⟩
      rfl
  next h =>
    constructor
    · nofun
    · rintro ⟨rfl, hsum⟩
      exact absurd hsum h

private theorem add_of_lt {a b : Int32} (hlow : -2147483648 ≤ a.toInt + b.toInt)
    (hhigh : a.toInt + b.toInt < 2147483648) :
    add a b = .ok (a + b) := by
  refine add_ok.mpr ⟨rfl, ?_⟩
  rw [Int32.toInt_add, Int.bmod_def]
  omega

private theorem verbosityToMask_ok : verbosityToMask v = .ok m ↔
    (v + 3).toInt = v.toInt + 3 ∧ m = (1 <<< (cropLoglevel (v + 3) + 1)) - 1 := by
  have hmap : verbosityToMask v = .ok m ↔ ∃ x, add v 3 = .ok x ∧ (1 <<< (cropLoglevel x + 1)) - 1 = m := map_ok
  rw [hmap]
  constructor
  · rintro ⟨x, hx, rfl⟩
    obtain ⟨rfl, hsum⟩ := add_ok.mp hx
    exact ⟨hsum, rfl⟩
  · rintro ⟨hsum, rfl⟩
    exact ⟨v + 3, add_ok.mpr ⟨rfl, hsum⟩, rfl⟩

/-- The masks of the verbosities from 0 on. -/
theorem verbosityToMask_cases (hv : 0 ≤ v) (h : verbosityToMask v = .ok m) :
    (v.toInt = 0 ∧ m = 15) ∨ (v.toInt = 1 ∧ m = 31) ∨ (v.toInt = 2 ∧ m = 63) ∨ (v.toInt = 3 ∧ m = 127) ∨
      (4 ≤ v.toInt ∧ m = 255) := by
  obtain ⟨hsum, rfl⟩ := verbosityToMask_ok.mp h
  have hpos : 0 ≤ v.toInt := Int32.le_iff_toInt_le.mp hv
  have hcases : v.toInt = 0 ∨ v.toInt = 1 ∨ v.toInt = 2 ∨ v.toInt = 3 ∨ 4 ≤ v.toInt := by omega
  rcases hcases with hint | hint | hint | hint | hint
  · rw [show v = 0 from Int32.toInt_inj.mp hint]
    decide
  · rw [show v = 1 from Int32.toInt_inj.mp hint]
    decide
  · rw [show v = 2 from Int32.toInt_inj.mp hint]
    decide
  · rw [show v = 3 from Int32.toInt_inj.mp hint]
    decide
  · have hcrop : cropLoglevel (v + 3) = 7 := by
      have hlow : ¬ v + 3 < Log_Level_Emergency := by
        rw [Int32.lt_iff_toInt_lt, hsum]
        exact Int.not_lt.mpr (by change 0 ≤ _; omega)
      rw [cropLoglevel, if_neg hlow]
      split
      · rfl
      next hhigh =>
        rw [Int32.lt_iff_toInt_lt, hsum] at hhigh
        have hseven : Log_Level_Debug.toInt = 7 := rfl
        apply Int32.toInt_inj.mp
        rw [hsum]
        change v.toInt + 3 = 7
        omega
    rw [hcrop]
    exact .inr (.inr (.inr (.inr ⟨hint, rfl⟩)))

private theorem Reaches.le (hv : 0 ≤ v) (h : Reaches v mask) : mask ≤ 255 := by
  obtain ⟨m, hm, hle⟩ := h
  refine Int32.le_trans hle ?_
  rcases verbosityToMask_cases hv hm with ⟨-, rfl⟩ | ⟨-, rfl⟩ | ⟨-, rfl⟩ | ⟨-, rfl⟩ | ⟨-, rfl⟩ <;> decide

/-! The loop. -/

private theorem step_next (h : verbosityFromMaskStep mask v = .ok (.inl w)) :
    w.toInt = v.toInt + 1 ∧ ∃ m, verbosityToMask v = .ok m ∧ m < mask := by
  obtain ⟨m, hm, h⟩ := bind_ok.mp h
  split at h
  next hlt =>
    obtain ⟨x, hx, heq⟩ := map_ok.mp h
    cases heq
    exact ⟨(add_ok.mp hx).2, m, hm, hlt⟩
  next => cases h

private theorem step_last (h : verbosityFromMaskStep mask v = .ok (.inr r)) : r = v ∧ Reaches v mask := by
  obtain ⟨m, hm, h⟩ := bind_ok.mp h
  split at h
  next hlt =>
    obtain ⟨x, -, heq⟩ := map_ok.mp h
    cases heq
  next hnot =>
    cases h
    exact ⟨rfl, m, hm, Int32.not_lt.mp hnot⟩

/-- The values of v that are left. -/
def left (v : Int32) : Nat := (2147483647 - v.toInt).toNat

private theorem step_left (v w : Int32) (h : verbosityFromMaskStep mask v = .ok (.inl w)) :
    left w < left v := by
  have hnext := (step_next h).1
  have hlt := w.toInt_lt
  unfold left
  omega

private theorem left_zero : left 0 < 2147483648 := by decide

private theorem verbosityFromMask_iff {r : Except Fault Int32} :
    verbosityFromMask mask = some r ↔ Ends (verbosityFromMaskStep mask) 0 r :=
  iterate_iff step_left left_zero

/-- The verbosity returned is the first one from the start of the loop whose mask is enough. -/
theorem ends_first (h : Ends (verbosityFromMaskStep mask) v (.ok r)) :
    v ≤ r ∧ Reaches r mask ∧ ∀ u, v ≤ u → Reaches u mask → r ≤ u := by
  generalize hr : (.ok r : Except Fault Int32) = x at h
  induction h with
  | @next s t x hstep ht ih =>
    obtain ⟨hle, hreaches, hleast⟩ := ih hr
    obtain ⟨hnext, m, hm, hlt⟩ := step_next hstep
    rw [Int32.le_iff_toInt_le] at hle
    refine ⟨Int32.le_iff_toInt_le.mpr (by omega), hreaches, fun u hu hru => ?_⟩
    by_cases heq : u = s
    · subst heq
      obtain ⟨m', hm', hle'⟩ := hru
      cases hm.symm.trans hm'
      exact absurd hlt (Int32.not_lt.mpr hle')
    · apply hleast u _ hru
      have hne : u.toInt ≠ s.toInt := fun h => heq (Int32.toInt_inj.mp h)
      rw [Int32.le_iff_toInt_le] at hu ⊢
      omega
  | @done s a hstep =>
    cases hr
    obtain ⟨rfl, hreaches⟩ := step_last hstep
    exact ⟨Int32.le_refl r, hreaches, fun u hu _ => hu⟩
  | error hstep => cases hr

/-- Up to the highest mask the loop does not go beyond the highest verbosity. -/
theorem steps_le (hmask : mask ≤ 255) (h : Steps (verbosityFromMaskStep mask) 0 v) : 0 ≤ v.toInt ∧ v.toInt ≤ 4 := by
  refine h.keeps (I := fun v : Int32 => 0 ≤ v.toInt ∧ v.toInt ≤ 4) ?_ (by decide)
  rintro s t ⟨hlow, hhigh⟩ hstep
  obtain ⟨hnext, m, hm, hlt⟩ := step_next hstep
  rcases verbosityToMask_cases (Int32.le_iff_toInt_le.mpr hlow) hm with
    ⟨hs, -⟩ | ⟨hs, -⟩ | ⟨hs, -⟩ | ⟨hs, -⟩ | ⟨-, rfl⟩
  all_goals try omega
  exact absurd hlt (Int32.not_lt.mpr hmask)

/-- The sums of an iteration are in the range of int far from its end. -/
theorem step_ok (hlow : 0 ≤ v.toInt) (hhigh : v.toInt < 2147483645) : ∃ x, verbosityFromMaskStep mask v = .ok x := by
  have hsum : add v Log_Level_Error = .ok (v + 3) :=
    add_of_lt (by change _ ≤ v.toInt + 3; omega) (by change v.toInt + 3 < _; omega)
  have hnext : add v 1 = .ok (v + 1) :=
    add_of_lt (by change _ ≤ v.toInt + 1; omega) (by change v.toInt + 1 < _; omega)
  have hmask : verbosityToMask v = .ok ((1 <<< (cropLoglevel (v + 3) + 1)) - 1) := by
    rw [verbosityToMask, hsum]
    rfl
  rw [verbosityFromMaskStep, hmask, ok_bind, hnext]
  split
  · exact ⟨_, rfl⟩
  · exact ⟨_, rfl⟩

private theorem exists_verbosityFromMask (mask : Int32) : ∃ r, verbosityFromMask mask = some r :=
  exists_iterate step_left left_zero

/-- It returns then. -/
theorem verbosityFromMask_returns (hmask : mask ≤ 255) : ∃ v, verbosityFromMask mask = some (.ok v) := by
  obtain ⟨r, hr⟩ := exists_verbosityFromMask mask
  cases r with
  | ok v => exact ⟨v, hr⟩
  | error f =>
    obtain ⟨v, hsteps, hlast⟩ := (verbosityFromMask_iff.mp hr).last
    obtain ⟨hlow, hhigh⟩ := steps_le hmask hsteps
    obtain ⟨x, hx⟩ : ∃ x, verbosityFromMaskStep mask v = .ok x := step_ok hlow (by omega)
    rw [hlast] at hx
    cases hx

private theorem verbosityFromMask_overflow (hmask : 255 < mask) : verbosityFromMask mask = some
    (.error .overflow) := by
  obtain ⟨r, hr⟩ := exists_verbosityFromMask mask
  cases r with
  | ok v =>
    obtain ⟨hle, hreaches, -⟩ := ends_first (verbosityFromMask_iff.mp hr)
    exact absurd hmask (Int32.not_lt.mpr (hreaches.le hle))
  | error f => exact hr

private theorem fits_of_first (hv : 0 ≤ v) (hreaches : Reaches v mask)
    (hleast : ∀ u, 0 ≤ u → Reaches u mask → v ≤ u) :
    Fits mask v where
  nonneg := hv
  least _ := ⟨hreaches, hleast⟩
  last hnone := absurd ⟨v, hv, hreaches⟩ hnone

private theorem fits_iff (mask : Int32) : (∃ v, verbosityFromMask mask = some (.ok v) ∧ Fits mask v) ↔
    mask ≤ 255 := by
  constructor
  · rintro ⟨v, hv, -⟩
    obtain ⟨hle, hreaches, -⟩ := ends_first (verbosityFromMask_iff.mp hv)
    exact hreaches.le hle
  · intro hmask
    obtain ⟨v, hv⟩ := verbosityFromMask_returns hmask
    obtain ⟨hle, hreaches, hleast⟩ := ends_first (verbosityFromMask_iff.mp hv)
    exact ⟨v, hv, fits_of_first hle hreaches hleast⟩

/-! The minimal mask, that set_logmask adds. -/

private theorem toNat_minimal (lvl : Int32) :
    (lvl ||| MINIMAL_LOGMASK).toBitVec.toNat = lvl.toBitVec.toNat / 16 * 16 + 15 := by
  have hlow : ∀ n < 16, n ||| 15 = 15 := by decide
  have hor := Nat.or_div_two_pow (a := lvl.toBitVec.toNat) (b := 15) (n := 4)
  have hmod := Nat.or_mod_two_pow (a := lvl.toBitVec.toNat) (b := 15) (n := 4)
  rw [Int32.toBitVec_or, BitVec.toNat_or]
  change (lvl.toBitVec.toNat ||| 15) = _
  have hdiv : (lvl.toBitVec.toNat ||| 15) / 16 = lvl.toBitVec.toNat / 16 := by
    rw [show (16 : Nat) = 2 ^ 4 from rfl, hor]
    exact Nat.or_zero _
  have hrest : (lvl.toBitVec.toNat ||| 15) % 16 = 15 := by
    rw [show (16 : Nat) = 2 ^ 4 from rfl, hmod]
    exact hlow _ (Nat.mod_lt _ (by decide))
  omega

private theorem setLogmask_le (lvl : Int32) {q : Nat} (hm : m.toInt = 16 * q + 15) : setLogmask lvl ≤ m ↔
    lvl ≤ m := by
  have hbits := toNat_minimal lvl
  have hlt := lvl.toBitVec.isLt
  rw [Int32.le_iff_toInt_le, Int32.le_iff_toInt_le, hm, setLogmask, ← Int32.toInt_toBitVec, ← Int32.toInt_toBitVec,
    BitVec.toInt_eq_toNat_cond, BitVec.toInt_eq_toNat_cond, hbits]
  split <;> split <;> omega

private theorem reaches_setLogmask (lvl : Int32) (hv : 0 ≤ v) : Reaches v (setLogmask lvl) ↔ Reaches v lvl := by
  have hiff : ∀ m, verbosityToMask v = .ok m → (setLogmask lvl ≤ m ↔ lvl ≤ m) := by
    intro m hm
    rcases verbosityToMask_cases hv hm with ⟨-, rfl⟩ | ⟨-, rfl⟩ | ⟨-, rfl⟩ | ⟨-, rfl⟩ | ⟨-, rfl⟩
    · exact setLogmask_le lvl (q := 0) rfl
    · exact setLogmask_le lvl (q := 1) rfl
    · exact setLogmask_le lvl (q := 3) rfl
    · exact setLogmask_le lvl (q := 7) rfl
    · exact setLogmask_le lvl (q := 15) rfl
  constructor
  · rintro ⟨m, hm, hle⟩
    exact ⟨m, hm, (hiff m hm).mp hle⟩
  · rintro ⟨m, hm, hle⟩
    exact ⟨m, hm, (hiff m hm).mpr hle⟩

private theorem fits_setLogmask (lvl : Int32) : Fits (setLogmask lvl) v ↔ Fits lvl v := by
  have hsome : (∃ u, 0 ≤ u ∧ Reaches u (setLogmask lvl)) ↔ ∃ u, 0 ≤ u ∧ Reaches u lvl :=
    exists_congr fun u => and_congr_right (reaches_setLogmask lvl)
  constructor
  · intro h
    refine ⟨h.nonneg, fun hu => ?_, fun hnone => h.last (hsome.not.mpr hnone)⟩
    obtain ⟨hreaches, hleast⟩ := h.least (hsome.mpr hu)
    exact ⟨(reaches_setLogmask lvl h.nonneg).mp hreaches,
      fun u hu hru => hleast u hu ((reaches_setLogmask lvl hu).mpr hru)⟩
  · intro h
    refine ⟨h.nonneg, fun hu => ?_, fun hnone => h.last (hsome.not.mp hnone)⟩
    obtain ⟨hreaches, hleast⟩ := h.least (hsome.mp hu)
    exact ⟨(reaches_setLogmask lvl h.nonneg).mpr hreaches,
      fun u hu hru => hleast u hu ((reaches_setLogmask lvl hu).mp hru)⟩

end

/-- The mask of an exported API is set, and the verbosity that its version has is the one of the mask. -/
def Follows (e : Export) (mask : Int32) : Prop := ∃ e', afbExportLogmaskSet e mask = some (.ok e') ∧
  e'.logmask = mask ∧ (e.version = .v1 ∨ e.version = .v2 → Fits mask e'.verbosity)

theorem follows_iff (e : Export) (mask : Int32) : Follows e mask ↔ (e.version = .v1 ∨ e.version = .v2 → mask ≤ 255) := by
  obtain ⟨version, logmask, verbosity⟩ := e
  have hloop (hset : afbExportLogmaskSet ⟨version, logmask, verbosity⟩ mask =
      (verbosityFromMask mask).map fun r => r.map fun v => ⟨version, mask, v⟩)
      (hversion : version = .v1 ∨ version = .v2) :
      Follows ⟨version, logmask, verbosity⟩ mask ↔ (version = .v1 ∨ version = .v2 → mask ≤ 255) := by
    rw [Follows, hset, ← fits_iff]
    constructor
    · rintro ⟨e', he', -, hfits⟩ _
      obtain ⟨r, hr, hmap⟩ := Option.map_eq_some_iff.mp he'
      obtain ⟨v, rfl, rfl⟩ := map_ok.mp hmap
      exact ⟨v, hr, hfits hversion⟩
    · intro h
      obtain ⟨v, hv, hfits⟩ := h hversion
      rw [hv]
      exact ⟨_, rfl, rfl, fun _ => hfits⟩
  cases version with
  | none => exact iff_of_true ⟨_, rfl, rfl, nofun⟩ nofun
  | v1 => exact hloop rfl (.inl rfl)
  | v2 => exact hloop rfl (.inr rfl)
  | v3 => exact iff_of_true ⟨_, rfl, rfl, nofun⟩ nofun

/-- The loop returns the verbosity of a mask exactly up to the mask of the level debug, also for the
masks that are given to set_logmask and, for a version that has a verbosity, to afb_export_logmask_set. -/
theorem logmask_verbosity_iff (e : Export) (mask : Int32) :
    ((∃ v, verbosityFromMask mask = some (.ok v) ∧ Fits mask v) ↔ mask ≤ 255) ∧
    ((∃ v, verbosityGet (setLogmask mask) = some (.ok v) ∧ Fits mask v) ↔ mask ≤ 255) ∧
    (Follows e mask ↔ (e.version = .v1 ∨ e.version = .v2 → mask ≤ 255)) := by
  refine ⟨fits_iff mask, ?_, follows_iff e mask⟩
  have hle := setLogmask_le (m := 255) mask (q := 15) rfl
  rw [← hle, ← fits_iff]
  exact exists_congr fun v => and_congr_right fun _ => (fits_setLogmask mask).symm

/-- The mask of the level 8: the loop does not return. -/
theorem logmask_loop_endless : ¬ ∀ (e : Export) (mask : Int32),
    (∃ v, verbosityFromMask mask = some (.ok v) ∧ Fits mask v) ∧
    (∃ v, verbosityGet (setLogmask mask) = some (.ok v) ∧ Fits mask v) ∧ Follows e mask := by
  intro h
  obtain ⟨⟨v, hv, -⟩, -⟩ := h ⟨.v2, 15, 0⟩ 256
  rw [verbosityFromMask_overflow (by decide)] at hv
  cases hv

end AfbBinder.Verbose
