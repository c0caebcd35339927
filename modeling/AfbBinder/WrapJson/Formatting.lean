import AfbBinder.WrapJson.Base64

/-! The format of encode_base64: the lines and the padding, that decode_base64 passes over. -/
namespace AfbBinder.WrapJson
open Lib.Cstrings

/-- The characters put one after the other, from the place left on the line. -/
def putAll (width : Nat) : Nat → Bytes → Bytes × Nat
  | iw, [] => ([], iw)
  | iw, c :: cs =>
    let p := putChar width iw c
    let r := putAll width p.2 cs
    (p.1 ++ r.1, r.2)

/-- A character that decode_base64 does not pass over. -/
def isCode (c : UInt8) : Bool := c ≠ 10 ∧ c ≠ 13 ∧ c ≠ 61

section
variable (width : Nat) {url : Bool} {count iout iw : Nat} {u16 : UInt16} {data : Bytes} {c : UInt8}

private theorem putAll_append (iw : Nat) (x y : Bytes) : putAll width iw (x ++ y) =
    ((putAll width iw x).1 ++ (putAll width (putAll width iw x).2 y).1,
      (putAll width (putAll width iw x).2 y).2) := by
  induction x generalizing iw with
  | nil => rfl
  | cons c x ih => simp only [List.cons_append, putAll, ih, List.append_assoc]

private theorem putChar_zero (c : UInt8) : putChar 0 0 c = ([c], 0) := rfl

/-- The loop puts on lines the characters that it writes without lines. -/
theorem encodeLoop_lines : encodeLoop width url count iout u16 data iw =
    (encodeLoop 0 url count iout u16 data 0).map fun x => putAll width iw x.1 := by
  induction count generalizing iout u16 data iw with
  | zero => rfl
  | succ count ih =>
    rw [encodeLoop, encodeLoop]
    cases sextet iout u16 data with
    | none => rfl
    | some x =>
      obtain ⟨u8, u16', data'⟩ := x
      rw [Option.bind_some, Option.bind_some]
      dsimp only
      rw [ih, putChar_zero]
      dsimp only
      cases encodeLoop 0 url count (iout + 1) u16' data' 0 with
      | none => rfl
      | some x => rfl

/-- The loop of the padding stops at the length: where so many = go exactly to it, it puts them. -/
theorem padLoop_eq {rlen k : Nat} {out : Bytes} (hk : k ≤ count)
    (hlen : out.length + (putAll width iw (List.replicate k 61)).1.length = rlen) :
    padLoop width rlen count out iw = out ++ (putAll width iw (List.replicate k 61)).1 := by
  induction count generalizing k out iw with
  | zero =>
    rw [Nat.le_zero.mp hk]
    exact (List.append_nil out).symm
  | succ count ih =>
    rw [padLoop]
    cases k with
    | zero =>
      have hfull : out.length = rlen := hlen
      rw [hfull, if_neg (Nat.lt_irrefl rlen)]
      exact (List.append_nil out).symm
    | succ k =>
      rw [List.replicate_succ, putAll] at *
      dsimp only at hlen ⊢
      have hpos : 0 < (putChar width iw 61).1.length := by
        unfold putChar
        split <;> exact Nat.succ_pos _
      rw [List.length_append] at hlen
      rw [if_pos (by omega), ih (Nat.le_of_succ_le_succ hk) (by rw [List.length_append]; omega), List.append_assoc]

/-- A line is ended each time that as many characters as its width are put. -/
theorem putAll_length (cs : Bytes) (hiw : 0 < iw) (hle : iw ≤ width) :
    (putAll width iw cs).1.length = cs.length + (width - iw + cs.length) / width := by
  induction cs generalizing iw with
  | nil =>
    rw [putAll, List.length_nil, Nat.add_zero, Nat.div_eq_of_lt (by omega)]
  | cons c cs ih =>
    rw [putAll, putChar]
    dsimp only
    rw [List.length_append, List.length_cons]
    split
    next hone =>
      have hfull : width - iw + (cs.length + 1) = cs.length + width := by omega
      rw [ih (by omega) (Nat.le_refl width), Nat.sub_self, Nat.zero_add, hfull, Nat.add_div_right _ (by omega)]
      simp only [List.length_cons, List.length_nil]
      omega
    next hmore =>
      have hplace : width - (iw - 1) + cs.length = width - iw + (cs.length + 1) := by omega
      rw [ih (by omega) (by omega), hplace, List.length_singleton]
      omega

private theorem putAll_length_zero (cs : Bytes) : (putAll 0 0 cs).1.length = cs.length := by
  induction cs with
  | nil => rfl
  | cons c cs ih =>
    rw [putAll, putChar_zero]
    dsimp only
    rw [List.length_append, ih, List.length_singleton, List.length_cons, Nat.add_comm]

private theorem putAll_mem (cs : Bytes) (iw : Nat) (h : c ∈ (putAll width iw cs).1) : c ∈ cs ∨ c = 10 := by
  induction cs generalizing iw with
  | nil => cases h
  | cons b cs ih =>
    rw [putAll, List.mem_append, putChar] at h
    rcases h with h | h
    · split at h
      · rcases List.mem_pair.mp h with rfl | rfl
        · exact .inl List.mem_cons_self
        · exact .inr rfl
      · rw [List.mem_singleton.mp h]
        exact .inl List.mem_cons_self
    · exact (ih _ h).imp_left (List.mem_cons_of_mem b)

private theorem putAll_filter (cs : Bytes) (iw : Nat) : (putAll width iw cs).1.filter isCode =
    cs.filter isCode := by
  induction cs generalizing iw with
  | nil => rfl
  | cons c cs ih =>
    rw [putAll, putChar]
    dsimp only
    rw [List.filter_append, ih, List.filter_cons]
    split
    · have hend : List.filter isCode [10] = [] := rfl
      rw [List.filter_cons, hend]
      split <;> rfl
    · rw [List.filter_cons]
      split <;> rfl

end

/-- Only the characters that are codes count. -/
theorem decodeLoop_filter (cs : Bytes) (iin : Nat) (u16 : UInt16) :
    decodeLoop (cs.filter isCode) iin u16 = decodeLoop cs iin u16 := by
  induction cs generalizing iin u16 with
  | nil => rfl
  | cons c cs ih =>
    by_cases hc : c ≠ 10 ∧ c ≠ 13 ∧ c ≠ 61
    · rw [List.filter_cons_of_pos (by rwa [isCode, decide_eq_true_iff]), decodeLoop, decodeLoop, if_pos hc, if_pos hc]
      simp only [ih]
    · rw [List.filter_cons_of_neg (by rwa [isCode, decide_eq_true_iff]), decodeLoop, if_neg hc, ih]

/-- The count of the characters with the padding. -/
def padded (pad : Bool) (n : Nat) : Nat := if pad then n + (4 - n % 4) % 4 else n

/-- The count of the characters with the ends of lines. -/
def lined (width n : Nat) : Nat := if width = 0 then n else n + n / width

private theorem le_padded (pad : Bool) (n : Nat) : n ≤ padded pad n := by
  unfold padded
  split
  · exact Nat.le_add_right _ _
  · exact Nat.le_refl _

private theorem le_lined (width n : Nat) : n ≤ lined width n := by
  unfold lined
  split
  · exact Nat.le_refl _
  · exact Nat.le_add_right _ _

private theorem putAll_lined (width : Nat) (cs : Bytes) : (putAll width width cs).1.length =
    lined width cs.length := by
  unfold lined
  split
  next h => rw [h, putAll_length_zero]
  next h => rw [putAll_length width cs (Nat.pos_of_ne_zero h) (Nat.le_refl width), Nat.sub_self, Nat.zero_add]

/-- The whole text: the characters of the data and those of the padding, on lines. -/
theorem encodeBase64_eq {data cs : Bytes} {width k : Nat} {pad url : Bool}
    (hcs : encodeLoop 0 url (nout data.length) 0 0 data 0 = some (cs, 0))
    (hk : cs.length + k = padded pad (nout data.length)) : encodeBase64 data width pad url =
      some ((putAll width width (cs ++ List.replicate k 61)).1, lined width (padded pad (nout data.length))) := by
  have htext := putAll_append width width cs (List.replicate k 61)
  have hlen := putAll_lined width (cs ++ List.replicate k 61)
  rw [htext, List.length_append, List.length_append, List.length_replicate, hk] at hlen
  have hfuel : k ≤ lined width (padded pad (nout data.length)) :=
    Nat.le_trans (hk ▸ Nat.le_add_left k cs.length) (le_lined width _)
  have hrlen : encodeBase64 data width pad url =
      (encodeLoop width url (nout data.length) 0 0 data width).map fun x =>
        (padLoop width (lined width (padded pad (nout data.length)))
          (lined width (padded pad (nout data.length))) x.1 x.2, lined width (padded pad (nout data.length))) := rfl
  rw [hrlen, encodeLoop_lines, hcs, Option.map_some, Option.map_some, padLoop_eq width hfuel hlen, htext]

/-- Whatever the width of the lines, the padding and the alphabet, as many characters are written as
were computed, none is a NUL, and they are decoded as the data. -/
theorem decode_encode_formatted (data : Bytes) (width : Nat) (pad url : Bool) : ∃ out rlen,
    encodeBase64 data width pad url = some (out, rlen) ∧ out.length = rlen ∧ 0 ∉ out ∧
      decodeBase64 out = some data := by
  obtain ⟨cs, hcs, hdecode⟩ := codes url data 0 0 rfl
  obtain ⟨-, hlen, hnul⟩ := encodeLoop_plain hcs
  obtain ⟨k, hk⟩ := Nat.exists_eq_add_of_le (le_padded pad (nout data.length))
  have hpad : cs.length + k = padded pad (nout data.length) := by rw [hlen, hk]
  refine ⟨_, _, encodeBase64_eq hcs hpad, ?_, ?_, ?_⟩
  · rw [putAll_lined, List.length_append, List.length_replicate, hpad]
  · intro hzero
    rcases putAll_mem width _ _ hzero with hmem | heq
    · rcases List.mem_append.mp hmem with hmem | hmem
      · exact hnul hmem
      · exact absurd (List.eq_of_mem_replicate hmem) (by decide)
    · exact absurd heq (by decide)
  · have hequals : (List.replicate k 61).filter isCode = [] := by
      apply List.filter_eq_nil_iff.mpr
      intro c hc
      rw [List.eq_of_mem_replicate hc]
      decide
    rw [decodeBase64, ← decodeLoop_filter, putAll_filter, List.filter_append, hequals, List.append_nil,
      decodeLoop_filter]
    exact hdecode 0

end AfbBinder.WrapJson
