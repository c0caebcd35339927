import AfbBinder.HookFlags.Names

/-! The names that are known in a table, and those of them that get_flag finds. -/
namespace AfbBinder.HookFlags
open Lib.Cstrings Lib.Words
open Lib.Json (ascii)

/-- The value of a name of a table. -/
def known (table : Table) (token : Bytes) : Option (BitVec 32) :=
  if token = ascii "*" then (table.flags.find? fun flag => flag.name = ascii "all").map Flag.value
  else
    match table.flags.find? fun flag => Alike token flag.name with
    | some flag => some flag.value
    | none => if Alike token (ascii "no") ∨ Alike token (ascii "none") then some 0 else none

section
variable {table : Table} {token : Bytes} {value : BitVec 32} {flag : Flag}

private theorem find_only {p : Flag → Bool} (hflag : flag ∈ table.flags) (hp : p flag = true)
    (honly : ∀ other ∈ table.flags, p other = true → Alike other.name flag.name) :
    table.flags.find? p = some flag := by
  cases hfound : table.flags.find? p with
  | none => exact absurd hp (List.find?_eq_none.mp hfound flag hflag)
  | some other =>
    have hother := List.mem_of_find?_eq_some hfound
    exact congrArg some (names_unlike hother hflag (honly other hother (List.find?_some hfound)))

/-- The names that are known are those that stand for something. -/
theorem known_iff : known table token = some value ↔ Stands table.flags token value := by
  constructor
  · intro h
    rw [known] at h
    split at h
    · rename_i hstar
      obtain ⟨flag, hfound, rfl⟩ := Option.map_eq_some_iff.mp h
      rw [hstar]
      exact .star flag (List.mem_of_find?_eq_some hfound) (by simpa using List.find?_some hfound)
    · split at h
      · rename_i flag hfound
        cases h
        exact .name flag (List.mem_of_find?_eq_some hfound) (by simpa using List.find?_some hfound)
      · split at h
        · rename_i hnone
          cases h
          exact .none hnone
        · cases h
  · intro h
    cases h with
    | name flag hflag halike =>
      have hfound : table.flags.find? (fun flag => Alike token flag.name) = some flag := by
        refine find_only hflag (by simpa using halike) fun other _ hother => ?_
        exact (of_decide_eq_true hother).symm.trans halike
      rw [known, if_neg (not_star hflag halike), hfound]
    | star flag hflag hall =>
      have hfound : table.flags.find? (fun flag => flag.name = ascii "all") = some flag := by
        refine find_only hflag (by simpa using hall) fun other _ hother => ?_
        rw [of_decide_eq_true hother, hall]
        rfl
      rw [known, if_pos rfl, hfound]
      rfl
    | none halike =>
      have hstar : token ≠ ascii "*" := by
        rintro rfl
        revert halike
        decide
      have hfound : table.flags.find? (fun flag => Alike token flag.name) = none := by
        refine List.find?_eq_none.mpr fun flag hflag hlike => ?_
        have hname := of_decide_eq_true hlike
        rcases halike with hno | hnone
        · exact (words_unlike hflag).2.1 (hname.symm.trans hno)
        · exact (words_unlike hflag).2.2 (hname.symm.trans hnone)
      rw [known, if_neg hstar, hfound]
      exact if_pos halike

/-- A token that get_flag finds. -/
structure Found (table : Table) (token : Bytes) : Prop where
  stands : ∃ value, Stands table.flags token value
  kept : ∀ name ∈ table.lost, ¬Alike token name

theorem Found.known_eq (h : Found table token) :
    known table token = some (getFlag token table.flags) := by
  obtain ⟨value, hvalue⟩ := h.stands
  rw [known_iff, getFlag_stands hvalue h.kept]
  exact hvalue

theorem Found.flag_ne (h : Found table token) : getFlag token table.flags ≠ -1 :=
  ne_minus_one (stands_msb (known_iff.mp h.known_eq))

theorem found_star (table : Table) : Found table (ascii "*") := by
  obtain ⟨flag, hflag, hall, -⟩ := all_listed table
  refine ⟨⟨_, .star flag hflag hall⟩, fun name hname halike => ?_⟩
  obtain ⟨entry, hentry, rfl⟩ := lost_listed hname
  exact (words_unlike hentry).1 halike

theorem getFlag_of_not_found (h : ¬Found table token) : getFlag token table.flags = -1 := by
  by_cases hstands : ∃ value, Stands table.flags token value
  · have hlost : ∃ name ∈ table.lost, Alike token name := by
      by_contra hnone
      push Not at hnone
      exact h ⟨hstands, hnone⟩
    obtain ⟨name, hname, halike⟩ := hlost
    exact getFlag_lost hname halike
  · push Not at hstands
    exact getFlag_unknown hstands

/-- The star is replaced by all, which get_flag would do too. -/
theorem getFlag_all (table : Table) :
    getFlag (ascii "all") table.flags = getFlag (ascii "*") table.flags := by
  obtain ⟨flag, hflag, hall, hkept⟩ := all_listed table
  rw [getFlag_star table hflag hall, getFlag_name hflag (by rw [hall]; rfl) hkept]

theorem words_star : words sep (ascii "*") = [ascii "*"] := by decide +kernel
theorem words_all : words sep (ascii "all") = [ascii "all"] := by decide +kernel

theorem orAll_msb (values : List (BitVec 32)) : (orAll values).msb = values.any (·.msb) := by
  have hacc : ∀ acc : BitVec 32, (values.foldl (· ||| ·) acc).msb =
      (acc.msb || values.any (·.msb)) := by
    induction values with
    | nil => simp
    | cons value values ih =>
      intro acc
      rw [List.foldl_cons, ih, BitVec.msb_or, List.any_cons, Bool.or_assoc]
  rw [orAll, hacc]
  rfl

end

end AfbBinder.HookFlags
