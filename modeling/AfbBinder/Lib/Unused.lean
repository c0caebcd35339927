import Mathlib.Algebra.Group.Nat.Defs
import AfbBinder.Lib.Lists

/-! Searching a number of 32 bits that a list does not have. -/
namespace AfbBinder.Lib.Unused
variable {ids : List UInt32} {a b : UInt32} {n : Nat}

/-- The first number from a on, in at most n of them. -/
def firstUnused (ids : List UInt32) : Nat → UInt32 → Option UInt32
  | 0, _ => none
  | n + 1, a => if a ∈ ids then firstUnused ids n (a + 1) else some a

/-- The same with a scan of the list that starts again when the number is met, in at most n
steps of the scan. -/
def rescan (ids : List UInt32) : Nat → List UInt32 → UInt32 → Option UInt32
  | _, [], a => some a
  | 0, _ :: _, _ => none
  | n + 1, d :: ds, a => if d ≠ a then rescan ids n ds a else rescan ids n ids (a + 1)

theorem firstUnused_notMem (h : firstUnused ids n a = some b) : b ∉ ids := by
  induction n generalizing a with
  | zero => exact nomatch h
  | succ n ih =>
    rw [firstUnused] at h
    split_ifs at h with ha
    · exact ih h
    · exact Option.some.inj h ▸ ha

theorem rescan_notMem {ds p : List UInt32} (hids : ids = p ++ ds) (ha : a ∉ p) (h : rescan ids n ds a = some b) :
    b ∉ ids := by
  induction n generalizing ds p a with
  | zero =>
    cases ds with
    | nil =>
      rw [rescan, Option.some.injEq] at h
      rwa [hids, List.append_nil, ← h]
    | cons d ds => exact nomatch h
  | succ n ih =>
    cases ds with
    | nil =>
      rw [rescan, Option.some.injEq] at h
      rwa [hids, List.append_nil, ← h]
    | cons d ds =>
      rw [rescan] at h
      split_ifs at h with hd
      · refine ih (p := p ++ [d]) (by rw [hids, List.append_cons]) ?_ h
        rw [List.mem_append, List.mem_singleton, not_or]
        exact ⟨ha, Ne.symm hd⟩
      · exact ih (p := []) rfl List.not_mem_nil h

private theorem mem_of_firstUnused_none (h : firstUnused ids n a = none) {i : Nat} (hi : i < n) :
    a + UInt32.ofNat i ∈ ids := by
  induction n generalizing a i with
  | zero => exact absurd hi (Nat.not_lt_zero _)
  | succ n ih =>
    rw [firstUnused] at h
    split_ifs at h with ha
    cases i with
    | zero => rwa [show UInt32.ofNat 0 = 0 from rfl, UInt32.add_zero]
    | succ i =>
      have hrest := ih h (Nat.lt_of_succ_lt_succ hi)
      rwa [UInt32.add_assoc, UInt32.add_comm 1, show (1 : UInt32) = UInt32.ofNat 1 from rfl,
        ← UInt32.ofNat_add] at hrest

/-- One number more than the list has is enough, when it has fewer than there are. -/
theorem firstUnused_ends (h : ids.length < 2 ^ 32) (a : UInt32) : ∃ b, firstUnused ids (ids.length + 1) a = some b := by
  rw [← Option.isSome_iff_exists, Option.isSome_iff_ne_none]
  intro hnone
  have hle := Lists.le_length_of_injOn (f := fun i => a + UInt32.ofNat i) (n := ids.length + 1) (l := ids)
    (fun i hi j hj heq => ?_) fun i hi => mem_of_firstUnused_none hnone hi
  · omega
  · have hnat := congrArg UInt32.toNat ((UInt32.add_right_inj a).mp heq)
    rwa [UInt32.toNat_ofNat', UInt32.toNat_ofNat', Nat.mod_eq_of_lt (by omega), Nat.mod_eq_of_lt (by omega)] at hnat

private theorem rescan_pass {ds : List UInt32} (hn : ds.length ≤ n) (ha : a ∉ ds) :
    rescan ids n ds a = some a := by
  induction ds generalizing n with
  | nil => rw [rescan]
  | cons d ds ih =>
    obtain ⟨n, rfl⟩ := Nat.exists_eq_add_of_le' (Nat.le_trans (Nat.succ_le_succ (Nat.zero_le _)) hn)
    rw [List.mem_cons, not_or] at ha
    rw [rescan, if_pos (Ne.symm ha.1)]
    exact ih (Nat.le_of_succ_le_succ hn) ha.2

private theorem rescan_again {ds : List UInt32} (hn : ds.length ≤ n) (ha : a ∈ ds) :
    ∃ m, n ≤ m + ds.length ∧ rescan ids n ds a = rescan ids m ids (a + 1) := by
  induction ds generalizing n with
  | nil => exact absurd ha List.not_mem_nil
  | cons d ds ih =>
    obtain ⟨n, rfl⟩ := Nat.exists_eq_add_of_le' (Nat.le_trans (Nat.succ_le_succ (Nat.zero_le _)) hn)
    rw [rescan]
    split_ifs with hd
    · have hmem : a ∈ ds := (List.mem_cons.mp ha).resolve_left (Ne.symm hd)
      obtain ⟨m, hm, hrest⟩ := ih (Nat.le_of_succ_le_succ hn) hmem
      exact ⟨m, by rw [List.length_cons]; omega, hrest⟩
    · exact ⟨n, by rw [List.length_cons]; omega, rfl⟩

/-- The scan finds the first one when it may go over the list once for each number tried. -/
theorem rescan_eq {r : Nat} (h : firstUnused ids r a = some b) (hn : r * ids.length ≤ n) :
    rescan ids n ids a = some b := by
  induction r generalizing a n with
  | zero => exact nomatch h
  | succ r ih =>
    rw [firstUnused] at h
    rw [Nat.succ_mul] at hn
    split_ifs at h with ha
    · have hagain : ∃ m, n ≤ m + ids.length ∧ rescan ids n ids a = rescan ids m ids (a + 1) :=
        rescan_again (by omega) ha
      obtain ⟨m, hm, hrest⟩ := hagain
      rw [hrest]
      exact ih h (by omega)
    · rw [rescan_pass (by omega) ha, h]

end AfbBinder.Lib.Unused
