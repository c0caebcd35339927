import AfbBinder.Lib.Checked
import AfbBinder.WrapJson.Unpacking

/-! The iterations of vunpack: they go onward in the descriptor and in the arguments. -/
namespace AfbBinder.WrapJson
open Lib.Cstrings Lib.Checked Lib.Loops
open Lib.Json (lbracket rbracket lbrace rbrace colon)

variable {D : Type} {doubles : Doubles D} {store : Bool}

/-- What is left of the descriptor and of the arguments is an end of what there was, that begins
with nothing to skip if it did. -/
structure Onward (st st' : UnpackState D) : Prop where
  d : st'.d <:+ st.d
  args : st'.args <:+ st.args
  skipped : Skipped st.d → Skipped st'.d

section
variable {st st' st'' : UnpackState D}

private theorem Onward.refl : Onward st st := ⟨List.suffix_refl _, List.suffix_refl _, id⟩

private theorem Onward.trans (h : Onward st st') (h' : Onward st' st'') : Onward st st'' :=
  ⟨h'.d.trans h.d, h'.args.trans h.args, h'.skipped ∘ h.skipped⟩

theorem skip_suffix (d : Bytes) : skip d <:+ d := List.dropWhile_suffix _

theorem advance_suffix (d : Bytes) : advance d <:+ d := (skip_suffix _).trans (List.tail_suffix d)

private theorem onward_advance : Onward st { st with d := advance st.d } :=
  ⟨advance_suffix _, List.suffix_refl _, fun _ => skipped_skip _⟩

theorem onward_put (p : Option Nat) (x : Stored D) : Onward st (st.put p x) := by
  cases p with
  | none => exact .refl
  | some p => exact ⟨List.suffix_refl _, List.suffix_refl _, id⟩

/-- A part of an iteration goes onward. -/
abbrev GoesOn (st : UnpackState D) (r : Except (Stop (UnpackState D)) (UnpackState D)) : Prop :=
  Meets (Onward st) (fun _ => True) r

theorem onward_takeArg {address : UnpackArg → Option (Option Nat)} :
    Meets (fun x => Onward st x.2 ∧ x.2.d = st.d) (fun _ => True) (takeArg store address st) := by
  unfold takeArg
  split
  · split
    · trivial
    · next arg args hargs =>
      split
      · exact ⟨⟨List.suffix_refl _, hargs ▸ List.suffix_cons arg args, id⟩, rfl⟩
      · trivial
  · exact ⟨.refl, rfl⟩

theorem onward_storeValue {fit : Bytes} {p : Option Nat} {value : JsonObject D → Option (Stored D)} :
    GoesOn st (storeValue st fit p value) := by
  unfold storeValue
  split
  · split
    · exact onward_put _ _
    · trivial
  · exact .refl

private theorem onward_unpackScalar {fit : Bytes} {address : UnpackArg → Option (Option Nat)}
    {value : JsonObject D → Option (Stored D)} : GoesOn st (unpackScalar store st fit address value) :=
  Meets.bind onward_takeArg fun _ hx => onward_storeValue.imp fun _ => hx.1.trans

private theorem onward_unpackString {fit : Bytes} : GoesOn st (unpackString store st fit) := by
  refine Meets.bind onward_unpackScalar fun u hu => ?_
  split
  · refine Meets.bind onward_takeArg fun x hx => ?_
    have hx' : Onward st x.2 := hu.trans (onward_advance.trans hx.1)
    dsimp only
    split
    · exact hx'.trans (onward_put _ _)
    · exact hx'
  · exact hu

private theorem onward_putBytes (py pz : Option Nat) (p : Option Bytes) : Onward st (putBytes st py pz p) := by
  unfold putBytes
  split
  · exact (onward_put _ _).trans (onward_put _ _)
  · exact .refl

/-- The last part of the reading of bytes, with the addresses. -/
def storeBytes (st : UnpackState D) (fit : Bytes) (py pz : Option Nat) :
    Except (Stop (UnpackState D)) (UnpackState D) :=
  if st.ignore = 0 then
    match st.obj with
    | .null => .ok (putBytes st py pz none)
    | .string s =>
      if py.isSome ∧ pz.isSome then
        match decodeBase64 s with
        | some data => .ok (putBytes st py pz (some data))
        | none => .error (.error .badBase64 st)
      else .ok st
    | _ => .error (missfit st fit)
  else .ok st

theorem unpackBytes_eq (fit : Bytes) : unpackBytes store st fit =
    (takeArg store UnpackArg.asBytes st).bind fun x =>
      (takeArg store UnpackArg.asSize x.2).bind fun y => storeBytes y.2 fit x.1 y.1 := rfl

theorem onward_storeBytes {fit : Bytes} {py pz : Option Nat} : GoesOn st (storeBytes st fit py pz) := by
  unfold storeBytes
  split
  · split
    · exact onward_putBytes _ _ _
    · split
      · split
        · exact onward_putBytes _ _ _
        · trivial
      · exact .refl
    · trivial
  · exact .refl

private theorem onward_unpackBytes {fit : Bytes} : GoesOn st (unpackBytes store st fit) := by
  rw [unpackBytes_eq]
  refine Meets.bind onward_takeArg fun x hx => ?_
  refine Meets.bind onward_takeArg fun y hy => ?_
  exact onward_storeBytes.imp fun _ => (hx.1.trans hy.1).trans

private theorem onward_unpackClose {c : UInt8} : GoesOn st (unpackClose st c) := by
  unfold unpackClose
  split
  · trivial
  · split
    · trivial
    · exact ⟨List.suffix_refl _, List.suffix_refl _, id⟩

private theorem onward_unpackItem {fit : Bytes} {c : UInt8} : GoesOn st
    (unpackItem doubles store st fit c) := by
  unfold unpackItem
  split
  · exact onward_unpackString
  split
  · split
    · trivial
    · exact .refl
  split
  · exact onward_unpackScalar
  split
  · exact onward_unpackScalar
  split
  · exact onward_unpackScalar
  split
  · exact onward_unpackScalar
  split
  · exact onward_unpackScalar
  split
  · exact onward_unpackBytes
  split
  · exact onward_unpackClose
  · trivial

/-- The last part of a key, with its name. -/
def lookupKey (st : UnpackState D) (optional : Bool) (name : Bytes) :
    Except (Stop (UnpackState D)) (UnpackState D) :=
  if st.ignore ≠ 0 then .ok { st with ignore := st.ignore + 1 }
  else
    match st.stack with
    | [] => .error (.fault .read)
    | top :: below =>
      match objectGetEx top.parent name with
      | some obj => .ok { st with obj, stack := { top with index := top.index + 1 } :: below }
      | none => if optional then .ok { st with ignore := 1, obj := .null } else .error (.error .keyNotFound st)

/-- The question mark of an optional key is read with it. -/
def unquestioned (d : Bytes) : Bytes := if cur d = question then advance d else d

private theorem unquestioned_suffix (d : Bytes) : unquestioned d <:+ d := by
  unfold unquestioned
  split
  · exact advance_suffix _
  · exact List.suffix_refl _

private theorem unquestioned_skipped {d : Bytes} (h : Skipped d) : Skipped (unquestioned d) := by
  unfold unquestioned
  split
  · exact skipped_skip _
  · exact h

theorem unpackKey_eq {k : Bytes} {args : List UnpackArg} (hargs : st.args = .key (some k) :: args) (hk : 0 ∈ k) :
    unpackKey st = lookupKey { st with d := unquestioned st.d, args, xacc := colon, acc := unpackAcceptAny }
      (cur st.d = question) (k.takeWhile (· ≠ 0)) := by
  unfold unpackKey lookupKey unquestioned
  rw [hargs]
  dsimp only
  rw [if_neg (not_not_intro hk)]
  by_cases hq : cur st.d = question
  · simp only [if_pos hq, decide_eq_true hq]
    rfl
  · simp only [if_neg hq, decide_eq_false hq]
    rfl

theorem unpackKey_ok (h : unpackKey st = .ok st') : ∃ k args, st.args = .key (some k) :: args ∧ 0 ∈ k := by
  unfold unpackKey at h
  split at h
  · cases h
  · next k args hargs => exact ⟨k, args, hargs, of_not_not (guard_ok.mp h).1⟩
  · cases h

/-- The last part of a key reads nothing, and is before a value. -/
theorem lookupKey_same {optional : Bool} {name : Bytes} (h : lookupKey st optional name = .ok st') :
    st'.d = st.d ∧ st'.args = st.args ∧ st'.xacc = st.xacc := by
  unfold lookupKey at h
  split at h
  · cases h
    exact ⟨rfl, rfl, rfl⟩
  split at h
  · cases h
  split at h
  · cases h
    exact ⟨rfl, rfl, rfl⟩
  split at h
  · cases h
    exact ⟨rfl, rfl, rfl⟩
  · cases h

private theorem onward_unpackKey (h : unpackKey st = .ok st') : Onward st st' := by
  obtain ⟨k, args, hargs, hk⟩ := unpackKey_ok h
  rw [unpackKey_eq hargs hk] at h
  obtain ⟨hd, ha, -⟩ := lookupKey_same h
  exact ⟨hd ▸ unquestioned_suffix _, ha ▸ hargs ▸ List.suffix_cons _ args, fun hs => hd ▸ unquestioned_skipped hs⟩

/-- The second switch reads nothing. -/
theorem unpackNext_same (h : unpackNext st = .ok (.inl st')) : st'.d = st.d ∧ st'.args = st.args := by
  unfold unpackNext at h
  split at h
  · split at h
    · cases h
    · split at h <;> cases h
  split at h
  · split at h
    · split at h
      · cases h
      · split at h
        · cases h
        · cases h
          exact ⟨rfl, rfl⟩
    · cases h
      exact ⟨rfl, rfl⟩
  split at h
  · cases h
    exact ⟨rfl, rfl⟩
  · cases h

/-- After an item of an array, it is still there. -/
theorem unpackNext_array (h : unpackNext st = .ok (.inl st')) (hxacc : st.xacc = rbracket) : st'.xacc = rbracket := by
  unfold unpackNext at h
  rw [hxacc, if_neg (by decide), if_pos rfl] at h
  split at h
  · split at h
    · cases h
    · obtain ⟨-, h⟩ := guard_ok.mp h
      cases h
      rfl
  · cases h
    exact hxacc

private theorem onward_unpackEnd {c : UInt8} : GoesOn st (unpackEnd st c) := by
  unfold unpackEnd
  dsimp only
  split
  · split
    · trivial
    split
    · split
      · trivial
      · split
        · trivial
        · exact ⟨List.suffix_refl _, List.suffix_refl _, id⟩
    · exact ⟨List.suffix_refl _, List.suffix_refl _, id⟩
  · exact ⟨List.suffix_refl _, List.suffix_refl _, id⟩

theorem unpackEnd_ok {c : UInt8} (h : unpackEnd st c = .ok st') : st' = { st with acc := [st.xacc] } := by
  unfold unpackEnd at h
  dsimp only at h
  split at h
  · obtain ⟨-, h⟩ := guard_ok.mp h
    split at h
    · split at h
      · cases h
      · obtain ⟨-, h⟩ := guard_ok.mp h
        cases h
        rfl
    · cases h
      rfl
  · cases h
    rfl

/-- An iteration goes beyond the character that it reads. -/
theorem unpackStep_onward (h : unpackStep doubles store st = .ok (.inl st')) :
    cur st.d ≠ 0 ∧ Onward { st with d := advance st.d } st' := by
  have hnext (u : UnpackState D) (hu : Onward { st with d := advance st.d } u)
      (hn : unpackNext u = .ok (.inl st')) : Onward { st with d := advance st.d } st' := by
    obtain ⟨hd, hargs⟩ := unpackNext_same hn
    exact ⟨hd ▸ hu.d, hargs ▸ hu.args, fun hs => hd ▸ hu.skipped hs⟩
  unfold unpackStep at h
  dsimp only at h
  obtain ⟨hzero, h⟩ := guard_ok.mp h
  obtain ⟨-, h⟩ := guard_ok.mp h
  refine ⟨hzero, ?_⟩
  split at h
  · obtain ⟨u, hu, heq⟩ := map_ok.mp h
    cases heq
    exact onward_unpackKey hu
  split at h
  · unfold unpackOpen at h
    obtain ⟨-, h⟩ := unless_ok.mp h
    dsimp only at h
    obtain ⟨-, h⟩ := guard_ok.mp h
    split at h
    · exact hnext { st with
        d := advance st.d, xacc := rbracket, acc := unpackAcceptArr,
        ignore := if st.ignore ≠ 0 then st.ignore + 1 else 0,
        stack := ⟨st.obj, st.acc, 0, Int32.ofNat st.obj.length, st.xacc⟩ :: st.stack }
        ⟨List.suffix_refl _, List.suffix_refl _, id⟩ h
    · cases h
      exact ⟨List.suffix_refl _, List.suffix_refl _, id⟩
  split at h
  · obtain ⟨u, hu, heq⟩ := map_ok.mp h
    cases heq
    exact (meets_iff.mp onward_unpackEnd).1 _ hu
  · obtain ⟨u, hu, hn⟩ := bind_ok.mp h
    exact hnext u ((meets_iff.mp onward_unpackItem).1 _ hu) hn

private theorem unpackStep_length (h : unpackStep doubles store st = .ok (.inl st')) :
    st'.d.length < st.d.length := by
  obtain ⟨hzero, hon⟩ := unpackStep_onward h
  exact Nat.lt_of_le_of_lt hon.d.length_le (advance_length hzero)

theorem onward_steps (h : Steps (unpackStep doubles store) st st') : Onward st st' :=
  h.keeps (I := Onward st) (fun _ _ hs hstep => hs.trans (onward_advance.trans (unpackStep_onward hstep).2)) .refl

variable (doubles store) in
theorem exists_ends (st : UnpackState D) : ∃ r, Ends (unpackStep doubles store) st r := by
  obtain ⟨r, hr⟩ := exists_iterate (fun _ _ => unpackStep_length) (Nat.lt_succ_self st.d.length)
  exact ⟨r, ends_of_iterate hr⟩

/-- The loop ends, as the iterations tell. -/
theorem unpackRun_iff {object : JsonObject D} {desc : Bytes} {args : List UnpackArg}
    {r : Except (Stop (UnpackState D)) (UnpackState D)} : unpackRun doubles store object (some desc) args = some r ↔
      Ends (unpackStep doubles store) (unpackStart object desc args) r :=
  iterate_iff (fun _ _ => unpackStep_length) (Nat.lt_succ_of_le (skip_length desc))

end

end AfbBinder.WrapJson
