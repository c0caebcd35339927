import AfbBinder.HookFlags.Names

/-! The text of a value: a pass of the loop that sizes it, then a pass that writes it. -/
namespace AfbBinder.HookFlags
open Lib.Cstrings Lib.Words
open Lib.Json (ascii)

def comma : UInt8 := 44

/-- One turn of the search of the next mask, from the end of the table. -/
def better (borrow value : BitVec 32) (flag mask : Flag) : Flag :=
  if mask.value &&& flag.value = mask.value ∧ borrow &&& flag.value = 0 ∧
      value &&& flag.value = flag.value then flag
  else mask

/-- The mask and its name, that is not read when the mask is 0. -/
def nextMask (borrow value : BitVec 32) (flags : List Flag) : Flag :=
  flags.foldr (better borrow value) ⟨[], 0⟩

/-- The size of the block is none before it is allocated; the writes are offsets and bytes. -/
structure Output where
  s : Nat
  result : Option Nat
  writes : List (Nat × Bytes)
  deriving DecidableEq, Repr

def Output.addName (out : Output) (name : Bytes) : Output :=
  match out.result with
  | none => { out with s := out.s + name.length + if out.s = 0 then 0 else 1 }
  | some _ =>
    let start := if out.s = 0 then 0 else out.s + 1
    { out with
      s := start + name.length
      writes := out.writes ++ (if out.s = 0 then [] else [(out.s, [comma])]) ++
        [(start, name ++ [0])] }

/-- The inner loop, a turn a unit of fuel. A mask found is not added to borrow. -/
def cover (flags : List Flag) (value : BitVec 32) : Nat → BitVec 32 → Output → Option Output
  | 0, _, _ => none
  | fuel + 1, borrow, out =>
    if borrow = value then some out
    else
      let mask := nextMask borrow value flags
      if mask.value = 0 then cover flags value fuel value out
      else cover flags value fuel borrow (out.addName mask.name)

/-- The outer loop; mem tells whether malloc succeeds. -/
def passes (flags : List Flag) (value : BitVec 32) (mem : Bool) : Nat → Output → Option Output
  | 0, _ => none
  | fuel + 1, out =>
    if out.s ≠ 0 ∧ mem = false then some out
    else
      let out := if out.s = 0 then out else { out with result := some (out.s + 1) }
      match cover flags value fuel 0 out with
      | none => none
      | some out => if out.result = none then passes flags value mem fuel out else some out

/-- None when the fuel does not suffice. -/
def toText (value : BitVec 32) (flags : List Flag) (mem : Bool) (fuel : Nat) : Option Output :=
  if value = 0 then
    if mem then some ⟨4, some 5, [(0, ascii "none" ++ [0])]⟩ else some ⟨0, none, []⟩
  else passes flags value mem fuel ⟨0, none, []⟩

/-- What the block holds at an index, none where nothing was written. -/
def Output.cell (out : Output) (i : Nat) : Option UInt8 :=
  out.writes.foldl
    (fun c w => if w.1 ≤ i ∧ i < w.1 + w.2.length then w.2[i - w.1]? else c) none

/-- The string at the start of the block. -/
def Output.text (out : Output) : Option Bytes :=
  out.result.bind fun size =>
    (((List.range size).map out.cell).takeWhile (· ≠ some 0)).mapM id

/-- What to_text is for: it ends, writes in the block that it allocated, and gives names between
commas that from_text turns into the value, but when there is no memory. -/
def ToTextRight (table : Table) (value : BitVec 32) (mem : Bool) : Prop :=
  ∃ fuel out, toText value table.flags mem fuel = some out ∧
    (∀ w ∈ out.writes, ∃ size, out.result = some size ∧ w.1 + w.2.length ≤ size) ∧
    (mem = true → ∃ names : List Bytes, (∀ name ∈ names, ∀ c ∈ name, sep c = false) ∧
      out.text = some (names.intersperse [comma]).flatten ∧
      fromText (some (names.intersperse [comma]).flatten) table.flags = value)

section
variable {borrow value mask : BitVec 32} {flags : List Flag} {flag : Flag} {mem : Bool}

/-- From borrow 0, no mask is found only when no flag of the table is in the value. -/
theorem nextMask_zero (h : (nextMask 0 value flags).value = 0) (hflag : flag ∈ flags)
    (hin : value &&& flag.value = flag.value) : flag.value = 0 := by
  induction flags with
  | nil => cases hflag
  | cons head flags ih =>
    have hzero : (nextMask 0 value flags).value = 0 := by
      rw [nextMask, List.foldr_cons, ← nextMask, better] at h
      split at h
      · rename_i hbetter
        rw [← hbetter.1, h]
        exact BitVec.and_zero
      · exact h
    rcases List.mem_cons.mp hflag with rfl | hflag
    · rw [nextMask, List.foldr_cons, ← nextMask, better, hzero,
        if_pos ⟨BitVec.zero_and, BitVec.zero_and, hin⟩] at h
      exact h
    · exact ih hzero hflag

/-- The value never gets covered. -/
theorem cover_endless (hvalue : value ≠ 0) (hmask : (nextMask 0 value flags).value ≠ 0)
    (fuel : Nat) (out : Output) : cover flags value fuel 0 out = none := by
  induction fuel generalizing out with
  | zero => rfl
  | succ fuel ih =>
    rw [cover, if_neg hvalue.symm]
    dsimp only
    rw [if_neg hmask]
    exact ih _

private theorem toText_endless (hflag : flag ∈ flags) (hne : flag.value ≠ 0)
    (hin : value &&& flag.value = flag.value) (fuel : Nat) :
    toText value flags mem fuel = none := by
  have hvalue : value ≠ 0 := by
    rintro rfl
    exact hne (hin.symm.trans BitVec.zero_and)
  have hmask : (nextMask 0 value flags).value ≠ 0 := fun h => hne (nextMask_zero h hflag hin)
  rw [toText, if_neg hvalue]
  cases fuel with
  | zero => rfl
  | succ fuel =>
    rw [passes, if_neg (by simp)]
    dsimp only
    rw [cover_endless hvalue hmask]

private theorem or_and_right (borrow mask : BitVec 32) : (borrow ||| mask) &&& mask = mask := by
  ext i hi
  rw [BitVec.getElem_and, BitVec.getElem_or]
  cases borrow[i] <;> cases mask[i] <;> rfl

private theorem or_and_left (value : BitVec 32) (h : borrow &&& mask = mask) :
    (borrow ||| value) &&& mask = mask := by
  rw [← h]
  ext i hi
  rw [BitVec.getElem_and, BitVec.getElem_or, BitVec.getElem_and]
  cases borrow[i] <;> cases mask[i] <;> cases value[i] <;> rfl

/-- A flag put in the value stays in it. -/
theorem foldl_or_and {values : List (BitVec 32)} (h : mask ∈ values ∨ borrow &&& mask = mask) :
    values.foldl (· ||| ·) borrow &&& mask = mask := by
  induction values generalizing borrow with
  | nil =>
    rcases h with h | h
    · cases h
    · exact h
  | cons value values ih =>
    rw [List.foldl_cons]
    apply ih
    rcases h with h | h
    · rcases List.mem_cons.mp h with rfl | h
      · exact .inr (or_and_right borrow mask)
      · exact .inl h
    · exact .inr (or_and_left value h)

private theorem orAll_zero {values : List (BitVec 32)} (h : ∀ value ∈ values, value = 0) :
    orAll values = 0 := by
  induction values with
  | nil => rfl
  | cons value values ih =>
    rw [orAll, List.foldl_cons, h value List.mem_cons_self]
    exact ih fun v hv => h v (List.mem_cons_of_mem _ hv)

private theorem toText_zero (table : Table) (mem : Bool) : ToTextRight table 0 mem := by
  cases mem with
  | false => exact ⟨0, ⟨0, none, []⟩, rfl, by decide, fun h => absurd h (by decide)⟩
  | true =>
    refine ⟨0, ⟨4, some 5, [(0, ascii "none" ++ [0])]⟩, rfl, by decide, fun _ => ?_⟩
    have htokens : tokens (some (ascii "none")) = [ascii "none"] := by decide +kernel
    have hnone : getFlag (ascii "none") table.flags = 0 := getFlag_none (.inr rfl)
    refine ⟨[ascii "none"], by decide +kernel, by decide +kernel, ?_⟩
    have hall : ∀ token ∈ tokens (some (ascii "none")), getFlag token table.flags ≠ -1 := by
      intro token htoken
      rw [htokens, List.mem_singleton] at htoken
      rw [htoken, hnone]
      decide
    change fromText (some (ascii "none")) table.flags = 0
    rw [fromText_known hall, htokens, List.map_singleton, hnone]
    rfl

end

/-- To_text is right for the value of no flag, and does not end for the others. -/
theorem toText_right_iff (table : Table) (chosen : Flag → Bool) (mem : Bool) :
    ToTextRight table (orAll ((table.flags.filter chosen).map Flag.value)) mem ↔
      orAll ((table.flags.filter chosen).map Flag.value) = 0 := by
  constructor
  · rintro ⟨fuel, out, hout, -⟩
    by_contra hvalue
    have hsome : ∃ flag ∈ table.flags.filter chosen, flag.value ≠ 0 := by
      by_contra hnone
      push Not at hnone
      refine hvalue (orAll_zero fun value hv => ?_)
      obtain ⟨flag, hflag, rfl⟩ := List.mem_map.mp hv
      exact hnone flag hflag
    obtain ⟨flag, hflag, hne⟩ := hsome
    have hmem : flag.value ∈ (table.flags.filter chosen).map Flag.value :=
      List.mem_map_of_mem hflag
    have hin : orAll ((table.flags.filter chosen).map Flag.value) &&& flag.value = flag.value :=
      foldl_or_and (.inl hmem)
    rw [toText_endless (List.mem_of_mem_filter hflag) hne hin] at hout
    cases hout
  · intro hzero
    rw [hzero]
    exact toText_zero table mem

/-- The flag alone of a name: to_text does not end. -/
theorem toText_addref_wrong : ¬ToTextRight .xreq afbHookFlagReqAddref true := by
  rintro ⟨fuel, out, hout, -⟩
  have hlisted : (⟨ascii "addref", afbHookFlagReqAddref⟩ : Flag) ∈ Table.xreq.flags :=
    List.mem_cons_self
  rw [toText_endless hlisted (by decide) (by decide)] at hout
  cases hout

end AfbBinder.HookFlags
