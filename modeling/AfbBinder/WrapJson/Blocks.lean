import Mathlib.Algebra.GroupWithZero.Nat
import AfbBinder.WrapJson.PackRuns

/-! The block for the strings of wrap_json_vpack: when the strings are written within it. -/
namespace AfbBinder.WrapJson
open Lib.Cstrings Lib.Checked Lib.Loops
open Lib.Json (lbracket rbracket lbrace rbrace colon)

/-- The recorded size and the real size of the block for the strings, once a string of n bytes is
made, their sum being a size_t. -/
def grow (b : Nat × Nat) (n : Nat) : Nat × Nat :=
  if b.1 < n % 2 ^ 64 then (max ((b.1 + b.1) % 2 ^ 64) (n % 2 ^ 64), n % 2 ^ 64) else b

/-- Each string is within the block that is there for it. -/
def Contained (b : Nat × Nat) : List Nat → Prop
  | [] => True
  | n :: sizes => n ≤ (grow b n).2 ∧ Contained (grow b n) sizes

instance decidableContained : ∀ b sizes, Decidable (Contained b sizes)
  | _, [] => isTrue trivial
  | b, n :: sizes =>
    have := decidableContained (grow b n) sizes
    inferInstanceAs (Decidable (_ ∧ _))

theorem contained_append {w : Nat × Nat} {xs ys : List Nat} :
    Contained w (xs ++ ys) ↔ Contained w xs ∧ Contained (xs.foldl grow w) ys := by
  induction xs generalizing w with
  | nil => exact (and_iff_right trivial).symm
  | cons n xs ih =>
    show _ ∧ _ ↔ (_ ∧ _) ∧ _
    rw [and_assoc]
    exact and_congr_right fun _ => ih

/-- The recorded and the real size of the block. -/
structure Covers (b : Scratch) (w : Nat × Nat) : Prop where
  ssz : b.ssz.toNat = w.1
  block : b.s.length = w.2
  size : w.2 < 2 ^ 64

/-- The bytes of the strings of an item. -/
def total (strs : List (Option Bytes × UInt64)) : Nat := (strs.map fun s => s.2.toNat).sum

section
variable {b : Scratch} {w : Nat × Nat} {n sz : UInt64} {m : Nat}

theorem covers_reserve (h : Covers b w) (hsz : sz.toNat = m % 2 ^ 64) : Covers (b.reserve sz) (grow w m) := by
  have hssz := h.ssz
  by_cases hlt : w.1 < m % 2 ^ 64
  · have hsum : (b.ssz + b.ssz).toNat = (w.1 + w.1) % 2 ^ 64 := by rw [UInt64.toNat_add, hssz]
    rw [Scratch.reserve, if_pos (UInt64.lt_iff_toNat_lt.mpr (by rw [hssz, hsz]; exact hlt)), grow, if_pos hlt]
    refine ⟨?_, by rw [List.length_replicate, hsz], Nat.mod_lt _ (Nat.two_pow_pos 64)⟩
    by_cases hmore : b.ssz + b.ssz < sz
    · have hle := Nat.le_of_lt (UInt64.lt_iff_toNat_lt.mp hmore)
      rw [hsum, hsz] at hle
      rw [if_pos hmore, Nat.max_eq_right hle, hsz]
    · have hle := Nat.le_of_not_lt fun h => hmore (UInt64.lt_iff_toNat_lt.mpr h)
      rw [hsum, hsz] at hle
      rw [if_neg hmore, hsum, Nat.max_eq_left hle]
  · rw [Scratch.reserve, if_neg fun h => hlt (by rwa [UInt64.lt_iff_toNat_lt, hssz, hsz] at h), grow, if_neg hlt]
    exact h

private theorem memcpy_length {s str : Bytes} {dsz k : Nat} (hstr : k ≤ str.length) (hs : dsz + k ≤ s.length) :
    (memcpy s dsz str k).length = s.length := by
  rw [memcpy, List.length_append, List.length_append, List.length_take, List.length_take, List.length_drop]
  omega

private theorem memcpy_room {s : Bytes} (str : Bytes) {dsz k : Nat} (hs : dsz + k ≤ s.length) :
    dsz ≤ (memcpy s dsz str k).length ∧ (memcpy s dsz str k).length ≤ s.length := by
  rw [memcpy, List.length_append, List.length_append, List.length_take, List.length_take, List.length_drop]
  omega

/-- The copies go out of the block when it is shorter than the strings together. -/
theorem copyStrings_write {strs : List (Option Bytes × UInt64)} {dsz : UInt64} {s : Bytes}
    (hs : s.length < 2 ^ 64) (hdsz : dsz.toNat = total strs % 2 ^ 64) :
    copyStrings strs dsz s = .error .write ↔ s.length < total strs := by
  induction strs generalizing dsz s with
  | nil =>
    constructor
    · nofun
    · exact fun h => absurd h (Nat.not_lt_zero _)
  | cons str strs ih =>
    obtain ⟨str, n⟩ := str
    have htotal : total ((str, n) :: strs) = n.toNat + total strs := List.sum_cons
    have hn := UInt64.toNat_lt n
    rw [copyStrings]
    rw [htotal] at hdsz ⊢
    by_cases hzero : n = 0
    · rw [hzero, UInt64.toNat_zero, Nat.zero_add] at hdsz ⊢
      rw [if_pos rfl]
      exact ih hs hdsz
    · rw [if_neg hzero]
      have hsub : (dsz - n).toNat = total strs % 2 ^ 64 := by
        rw [UInt64.toNat_sub, hdsz]
        omega
      by_cases hroom : s.length < (dsz - n).toNat + n.toNat
      · rw [if_pos hroom]
        refine ⟨fun _ => ?_, fun _ => rfl⟩
        have hle := Nat.mod_le (total strs) (2 ^ 64)
        omega
      · rw [if_neg hroom]
        obtain ⟨hlow, hhigh⟩ := memcpy_room (str.getD []) (Nat.le_of_not_lt hroom)
        have hrest := ih (Nat.lt_of_le_of_lt hhigh hs) hsub
        constructor
        · intro h
          have hwrite : copyStrings strs (dsz - n) (memcpy s (dsz - n).toNat (str.getD []) n.toNat) =
              .error .write := by
            generalize copyStrings strs (dsz - n) _ = r at h
            cases r with
            | error f => exact h
            | ok s' =>
              rw [ok_bind] at h
              split at h <;> cases h
          have hlt := hrest.mp hwrite
          have hmod := Nat.mod_add_div (total strs) (2 ^ 64)
          have hdiv : 0 < total strs / 2 ^ 64 := Nat.pos_of_ne_zero fun hdiv => by
            rw [hdiv, Nat.mul_zero, Nat.add_zero] at hmod
            omega
          have hmul := Nat.mul_le_mul_left (2 ^ 64) hdiv
          omega
        · intro h
          rw [hrest.mpr]
          · rfl
          · by_contra hge
            have hsmall := Nat.lt_of_le_of_lt (Nat.le_of_not_lt hge) (Nat.lt_of_le_of_lt hhigh hs)
            rw [Nat.mod_eq_of_lt hsmall] at hsub
            omega

/-- Copies that are made leave a block of the same size. -/
theorem copyStrings_length {strs : List (Option Bytes × UInt64)} {dsz : UInt64} {s s' : Bytes}
    (h : copyStrings strs dsz s = .ok s') : s'.length = s.length := by
  induction strs generalizing dsz s with
  | nil =>
    cases h
    rfl
  | cons str strs ih =>
    rw [copyStrings] at h
    split at h
    · exact ih h
    · obtain ⟨hroom, h⟩ := guard_ok.mp h
      obtain ⟨u, hu, h⟩ := bind_ok.mp h
      obtain ⟨hread, h⟩ := guard_ok.mp h
      cases h
      rw [ih hu, memcpy_length (Nat.le_of_not_lt hread) (Nat.le_of_not_lt hroom)]

end

/-! The strings of an item. -/

variable {D : Type} {strings : StringMaker}

section
variable {st st' : PackState D} {w : Nat × Nat}

/-- The sum of the sizes, as a size_t. -/
theorem scanStrings_sum (left : Nat) (st : PackState D) (v : Strings) (hv : v.sz.toNat = total v.strs % 2 ^ 64) :
    Meets (fun x => x.1.sz.toNat = total x.1.strs % 2 ^ 64) (fun _ => True) (scanStrings left st v) := by
  induction left generalizing st v with
  | zero => trivial
  | succ left ih =>
    rw [scanStrings]
    split
    next str args hargs =>
      refine Meets.bind (P := fun _ => True) ?_ fun x _ => ?_
      · exact meets_iff.mpr ⟨fun _ _ => trivial, fun _ _ => trivial⟩
      dsimp only
      have hsum : (v.sz + x.1).toNat = total ((str, x.1) :: v.strs) % 2 ^ 64 := by
        have htotal : total ((str, x.1) :: v.strs) = x.1.toNat + total v.strs := List.sum_cons
        rw [UInt64.toNat_add, hv, htotal]
        omega
      split
      · exact hsum
      · split
        · trivial
        · exact ih _ _ hsum
    next => trivial

/-- The strings of an item that are copied. -/
def copiedStrings (st : PackState D) : Option (Strings × PackState D) :=
  match scanStrings STRCOUNT st ⟨[], 0, false, false⟩ with
  | .ok (v, st) => if v.notnull then some (v, st) else none
  | .error _ => none

/-- How many bytes they have together. -/
def copiedTotal (st : PackState D) : Option Nat := (copiedStrings st).map fun x => total x.1.strs

variable (strings) in
private theorem packString_write (st : PackState D) (hw : Covers st.scratch w) : packString strings st =
    .error (.fault .write) ↔
    ∃ n, copiedTotal st = some n ∧ (grow w n).2 < n := by
  have hquiet := quiet_scanStrings STRCOUNT st ⟨[], 0, false, false⟩
  have hsum := scanStrings_sum STRCOUNT st ⟨[], 0, false, false⟩ rfl
  rw [packString, copiedTotal, copiedStrings]
  cases hscan : scanStrings STRCOUNT st ⟨[], 0, false, false⟩ with
  | error stop =>
    rw [hscan] at hquiet
    constructor
    · intro h
      cases h
      exact absurd (hquiet rfl) Bool.false_ne_true
    · rintro ⟨n, h, -⟩
      cases h
  | ok x =>
    obtain ⟨v, u⟩ := x
    rw [hscan] at hquiet hsum
    rw [ok_bind]
    dsimp only
    cases hnull : v.notnull with
    | false =>
      rw [if_neg Bool.false_ne_true, if_neg Bool.false_ne_true]
      constructor
      · intro h
        split at h <;> cases h
      · rintro ⟨n, h, -⟩
        cases h
    | true =>
      rw [if_pos rfl, if_pos rfl]
      have hcovers : Covers (u.scratch.reserve v.sz) (grow w (total v.strs)) :=
        covers_reserve (hquiet.scratch ▸ hw) hsum
      have hwrite := copyStrings_write (hcovers.block ▸ hcovers.size) hsum
      rw [hcovers.block] at hwrite
      constructor
      · intro h
        refine ⟨_, rfl, hwrite.mp ?_⟩
        cases hcopy : copyStrings v.strs v.sz (u.scratch.reserve v.sz).s with
        | ok s =>
          rw [hcopy] at h
          have hnew : Quiet { u with scratch := { u.scratch.reserve v.sz with s } }
              (newObject { u with scratch := { u.scratch.reserve v.sz with s } }
                ((strings.newStringLen s v.sz.toUInt32.toInt32).map JsonObject.string)) := quiet_newObject
          dsimp only [newString] at h
          rw [h] at hnew
          exact absurd (hnew rfl) Bool.false_ne_true
        | error f =>
          rw [hcopy] at h
          cases h
          rfl
      · rintro ⟨n, hn, hlt⟩
        cases hn
        rw [hwrite.mpr hlt]

private theorem packString_covers (st : PackState D) (hw : Covers st.scratch w) : Meets
    (fun x => Covers x.2.scratch
    ((copiedTotal st).toList.foldl grow w)) (fun _ => True) (packString strings st) := by
  have hquiet := quiet_scanStrings STRCOUNT st ⟨[], 0, false, false⟩
  have hsum := scanStrings_sum STRCOUNT st ⟨[], 0, false, false⟩ rfl
  rw [packString, copiedTotal, copiedStrings]
  cases hscan : scanStrings STRCOUNT st ⟨[], 0, false, false⟩ with
  | error stop => trivial
  | ok x =>
    obtain ⟨v, u⟩ := x
    rw [hscan] at hquiet hsum
    rw [ok_bind]
    dsimp only
    cases hnull : v.notnull with
    | false =>
      rw [if_neg Bool.false_ne_true, if_neg Bool.false_ne_true]
      have hcovers : Covers u.scratch w := hquiet.scratch ▸ hw
      split
      · exact hcovers
      · trivial
    | true =>
      rw [if_pos rfl, if_pos rfl]
      have hcovers : Covers (u.scratch.reserve v.sz) (grow w (total v.strs)) :=
        covers_reserve (hquiet.scratch ▸ hw) hsum
      split
      · next s hcopy =>
        refine quiet_newObject.mono (fun y hy => ?_) fun _ _ => trivial
        rw [hy.scratch]
        exact ⟨hcovers.ssz, (copyStrings_length hcopy).trans hcovers.block, hcovers.size⟩
      · trivial

/-- The bytes of the strings that an iteration copies. -/
def stepTotal (st : PackState D) : Option Nat :=
  match st.stack with
  | [] => none
  | top :: _ =>
    if cur st.d = lowerS ∧ lowerS ∈ top.acc then copiedTotal { st with d := advance st.d } else none

private theorem stepTotal_eq {top : PackFrame D} {below : List (PackFrame D)}
    (h : st.stack = top :: below) : stepTotal st =
    if cur st.d = lowerS ∧ lowerS ∈ top.acc then copiedTotal { st with d := advance st.d } else none := by
  unfold stepTotal
  split
  · next hnil => rw [hnil] at h; cases h
  · next hcons => rw [hcons] at h; cases h; rfl

variable (strings) in
/-- An iteration writes out of the block when there is not the room for its strings. -/
theorem packStep_write (hw : Covers st.scratch w) : packStep strings st = .error (.fault .write) ↔
    ∃ n, stepTotal st = some n ∧ (grow w n).2 < n := by
  have hnever {r : Except (Stop (PackState D)) (PackState D ⊕ JsonObject D)} {P : PackState D ⊕ JsonObject D → Prop}
      (h : Meets P NoWrite r) : r = .error (.fault .write) ↔ ∃ n, none = some n ∧ (grow w n).2 < n := by
    constructor
    · rintro rfl
      exact absurd rfl h
    · rintro ⟨n, hn, -⟩
      cases hn
  have herror {e : JsonError} {u : PackState D} :
      (Except.error (.error e u) : Except (Stop (PackState D)) (PackState D ⊕ JsonObject D)) = .error (.fault .write) ↔
        ∃ n, none = some n ∧ (grow w n).2 < n := hnever (P := fun _ => True) trivial
  cases hstack : st.stack with
  | nil =>
    have hnone : stepTotal st = none := by
      unfold stepTotal
      split
      · rfl
      · next h => rw [hstack] at h; cases h
    rw [packStep_nil hstack, hnone]
    exact herror
  | cons top below =>
    have htotal := stepTotal_eq hstack
    by_cases hs : cur st.d = lowerS
    · rw [htotal, packStep_string hstack hs, hs]
      by_cases hacc : lowerS ∈ top.acc
      · rw [if_neg (not_not_intro hacc), if_pos ⟨rfl, hacc⟩]
        rw [← packString_write strings { st with d := advance st.d } hw]
        cases packString strings { st with d := advance st.d } with
        | error stop => simp [Except.bind]
        | ok x =>
          have hstore : Meets (Stays x.2) NoWrite (packStore x.2 x.1) := stays_packStore
          rw [ok_bind]
          constructor
          · intro h
            rw [h] at hstore
            exact absurd rfl hstore
          · nofun
      · rw [if_pos hacc, if_neg fun h => hacc h.2]
        exact herror
    · rw [if_neg fun h => hs h.1] at htotal
      rw [htotal, packStep_eq hstack]
      split
      · exact herror
      split
      · exact herror
      split
      · exact hnever (Meets.map (Q := fun _ => True) (stays_packOpen.imp fun _ _ => trivial))
      · have hstore (x : JsonObject D × PackState D) : Meets (fun _ => True) NoWrite (packStore x.2 x.1) :=
          stays_packStore.imp fun _ _ => trivial
        exact hnever (Meets.bind (stays_packItem hs) fun x _ => hstore x)

private theorem packStep_covers (hw : Covers st.scratch w) (h : packStep strings st = .ok (.inl st')) :
    Covers st'.scratch ((stepTotal st).toList.foldl grow w) := by
  cases hstack : st.stack with
  | nil =>
    rw [packStep_nil hstack] at h
    cases h
  | cons top below =>
    have hmeets : Meets (fun x => ∀ u, x = .inl u → Covers u.scratch ((stepTotal st).toList.foldl grow w))
        (fun _ => True) (packStep strings st) := by
      have htotal := stepTotal_eq hstack
      by_cases hs : cur st.d = lowerS
      · rw [htotal, packStep_string hstack hs, hs]
        by_cases hacc : lowerS ∈ top.acc
        · rw [if_neg (not_not_intro hacc), if_pos ⟨rfl, hacc⟩]
          refine Meets.bind (packString_covers { st with d := advance st.d } hw) fun x hx => ?_
          refine stays_packStore.mono (fun y hy u hu => ?_) fun _ _ => trivial
          rw [hu] at hy
          exact hy.1 ▸ hx
        · rw [if_pos hacc]
          trivial
      · rw [if_neg fun h => hs h.1] at htotal
        rw [htotal, packStep_eq hstack]
        split
        · trivial
        split
        · trivial
        split
        · refine Meets.map (stays_packOpen.mono (fun u hu v hv => ?_) fun _ _ => trivial)
          cases hv
          exact hu.1 ▸ hw
        · refine Meets.bind ((stays_packItem hs).mono (fun _ h => h) fun _ _ => trivial) fun x hx => ?_
          refine stays_packStore.mono (fun y hy u hu => ?_) fun _ _ => trivial
          rw [hu] at hy
          have hscratch : u.scratch = st.scratch := hy.1.trans hx.1
          exact hscratch ▸ hw
    rw [h] at hmeets
    exact hmeets st' rfl

/-! The strings of a run. -/

variable (strings)

/-- The bytes of the strings that are copied, iteration after iteration. -/
def loopTotals : Nat → PackState D → List Nat
  | 0, _ => []
  | count + 1, st => (stepTotal st).toList ++
    match packStep strings st with
    | .ok (.inl st) => loopTotals count st
    | _ => []

def packTotals (desc : Option Bytes) (args : List (PackArg D)) (mem : List Bool) : List Nat :=
  match desc with
  | none => []
  | some desc => loopTotals strings (desc.length + 1) (packStart desc args mem)

variable {strings}

private theorem loop_write {count : Nat} (hw : Covers st.scratch w) :
    iterate (packStep strings) count st ≠ some (.error (.fault .write)) ↔
      Contained w (loopTotals strings count st) := by
  induction count generalizing st w with
  | zero => exact ⟨fun _ => trivial, fun _ h => by cases h⟩
  | succ count ih =>
    have hwrite := packStep_write strings hw
    have hhead : Contained w (stepTotal st).toList ↔ packStep strings st ≠ .error (.fault .write) := by
      rw [Ne, hwrite]
      cases stepTotal st with
      | none =>
        constructor
        · rintro - ⟨n, hn, -⟩
          cases hn
        · exact fun _ => trivial
      | some n =>
        constructor
        · rintro ⟨hle, -⟩ ⟨m, hm, hlt⟩
          cases hm
          exact absurd hle (Nat.not_le.mpr hlt)
        · exact fun h => ⟨Nat.le_of_not_lt fun hlt => h ⟨n, rfl, hlt⟩, trivial⟩
    rw [iterate, loopTotals, contained_append, hhead]
    cases hstep : packStep strings st with
    | error stop =>
      have hrest : Contained ((stepTotal st).toList.foldl grow w) [] := trivial
      rw [Ne, Ne, Option.some.injEq]
      refine ⟨fun h => ⟨fun heq => h (congrArg _ (Except.error.inj heq)), hrest⟩, fun h heq => h.1 ?_⟩
      exact congrArg _ (Except.error.inj heq)
    | ok x =>
      cases x with
      | inr obj => exact ⟨fun _ => ⟨fun h => (by cases h), trivial⟩, fun _ h => by cases h⟩
      | inl u => exact (ih (packStep_covers hw hstep)).trans (and_iff_right fun h => by cases h).symm

theorem wrapJsonVpack_fault {desc : Option Bytes} {args : List (PackArg D)} {mem : List Bool} {f : Fault} :
    wrapJsonVpack strings desc args mem = some (.fault f) ↔ packRun strings desc args mem = some (.error (.fault f)) := by
  rw [wrapJsonVpack]
  cases packRun strings desc args mem with
  | none => exact ⟨nofun, nofun⟩
  | some r =>
    match r with
    | .ok obj => exact ⟨nofun, nofun⟩
    | .error (.error e st) => exact ⟨nofun, nofun⟩
    | .error (.fault f) => simp

private theorem packRun_write (desc : Option Bytes) (args : List (PackArg D)) (mem : List Bool) :
    packRun strings desc args mem ≠ some (.error (.fault .write)) ↔
      Contained (256, 256) (packTotals strings desc args mem) := by
  cases desc with
  | none =>
    constructor
    · exact fun _ => trivial
    · rintro - h
      cases h
  | some desc => exact loop_write ⟨rfl, List.length_replicate, by decide⟩

/-- The strings are written within the block, if and only if there is the room for each in the
block of the last one that was above the recorded size. -/
theorem wrapJsonVpack_writes_iff (strings : StringMaker) (desc : Option Bytes) (args : List (PackArg D))
    (mem : List Bool) : wrapJsonVpack strings desc args mem ≠ some (.fault .write) ↔
      Contained (256, 256) (packTotals strings desc args mem) :=
  (not_congr wrapJsonVpack_fault).trans (packRun_write desc args mem)

/-- Strings of 257 and then of 258 bytes: the second one is written out of the block of the first. -/
theorem wrapJsonVpack_write_out : ¬ ∀ (desc : Option Bytes) (args : List (PackArg Unit)) (mem : List Bool),
    wrapJsonVpack takingMaker desc args mem ≠ some (.fault .write) := by
  intro hall
  have hrun := hall (some [lbracket, lowerS, percent, lowerS, percent, rbracket])
    [.pointer (some (List.replicate 257 lowerS)), .size 257, .pointer (some (List.replicate 258 lowerS)), .size 258] []
  have hcontained := (packRun_write _ _ _).mp ((not_congr wrapJsonVpack_fault).mp hrun)
  exact absurd hcontained (by decide +kernel)

end

end AfbBinder.WrapJson
