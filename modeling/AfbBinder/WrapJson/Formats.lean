import Mathlib.Data.List.Basic
import AfbBinder.Lib.Cstrings
import AfbBinder.Lib.Json
import AfbBinder.Lib.Lists

/-! What the two interpreters of descriptors share: the characters, the errors, and the steps over
the text of a descriptor. -/
namespace AfbBinder.WrapJson
open Lib.Cstrings
open Lib.Json (blank comma colon lbracket rbracket lbrace rbrace)

abbrev bang : UInt8 := 0x21
abbrev hash : UInt8 := 0x23
abbrev percent : UInt8 := 0x25
abbrev star : UInt8 := 0x2A
abbrev plus : UInt8 := 0x2B
abbrev question : UInt8 := 0x3F
abbrev upperF : UInt8 := 0x46
abbrev upperI : UInt8 := 0x49
abbrev upperO : UInt8 := 0x4F
abbrev upperY : UInt8 := 0x59
abbrev lowerB : UInt8 := 0x62
abbrev lowerF : UInt8 := 0x66
abbrev lowerI : UInt8 := 0x69
abbrev lowerN : UInt8 := 0x6E
abbrev lowerO : UInt8 := 0x6F
abbrev lowerS : UInt8 := 0x73
abbrev lowerY : UInt8 := 0x79

def STACKCOUNT : Nat := 32

def STRCOUNT : Nat := 8

/-- The codes of the errors, in their order. -/
inductive JsonError where
  | nullObject
  | truncated
  | internalError
  | outOfMemory
  | invalidCharacter
  | tooLong
  | tooDeep
  | nullSpec
  | nullKey
  | nullString
  | outOfRange
  | incomplete
  | missfitType
  | keyNotFound
  | badBase64
  deriving DecidableEq, Repr

def JsonError.code : JsonError → Nat
  | .nullObject => 1
  | .truncated => 2
  | .internalError => 3
  | .outOfMemory => 4
  | .invalidCharacter => 5
  | .tooLong => 6
  | .tooDeep => 7
  | .nullSpec => 8
  | .nullKey => 9
  | .nullString => 10
  | .outOfRange => 11
  | .incomplete => 12
  | .missfitType => 13
  | .keyNotFound => 14
  | .badBase64 => 15

/-- rc | (int)((d - desc) << 4), negated -/
def JsonError.rc (e : JsonError) (position : Nat) : Int32 :=
  -(Int32.ofNat e.code ||| Int32.ofNat (position * 16))

/-- What C gives no meaning to: an argument of another type or none, a read or a write out of a block. -/
inductive Fault where
  | argument
  | read
  | write
  deriving DecidableEq, Repr

/-- The end of an interpreter on an error, in the state that it is met, or on a fault. -/
inductive Stop (S : Type) where
  | error (e : JsonError) (s : S)
  | fault (f : Fault)

def ignoreAll : Bytes := [blank, 0x09, 0x0A, 0x0D, comma, colon]

def skip : Bytes → Bytes := List.dropWhile (· ∈ ignoreAll)

/-- *d, that is NUL at the end. -/
def cur (d : Bytes) : UInt8 := d.headD 0

/-- skip(++d) -/
def advance (d : Bytes) : Bytes := skip d.tail

def strlen (s : Bytes) : Option UInt64 :=
  if 0 ∈ s then some (UInt64.ofNat (s.takeWhile (· ≠ 0)).length) else none

/-- The characters of a descriptor that skip does not ignore. -/
def significant (d : Bytes) : Bytes := d.filter (· ∉ ignoreAll)

/-- Nothing to skip. -/
def Skipped (d : Bytes) : Prop := ∀ c ∈ d.head?, c ∉ ignoreAll

section
variable {d rest : Bytes} {c : UInt8}

theorem significant_cons (h : c ∉ ignoreAll) (d : Bytes) : significant (c :: d) = c :: significant d :=
  List.filter_cons_of_pos (by simpa using h)

theorem skipped_skip (d : Bytes) : Skipped (skip d) := by
  intro c hc
  have hhead := List.head?_dropWhile_not (· ∈ ignoreAll) d
  unfold skip at hc
  rw [hc] at hhead
  simpa using hhead

theorem significant_skip (d : Bytes) : significant (skip d) = significant d := by
  induction d with
  | nil => rfl
  | cons c d ih =>
    unfold skip significant at *
    rw [List.dropWhile_cons]
    split
    · next h => rw [ih, List.filter_cons_of_neg (by simpa using h)]
    · rfl

/-- The character met is the next one that counts. -/
theorem Skipped.split (h : Skipped d) (hd : significant d = c :: rest) :
    cur d = c ∧ significant (advance d) = rest ∧ Skipped (advance d) := by
  cases d with
  | nil => cases hd
  | cons b d =>
    have hb : b ∉ ignoreAll := h b rfl
    rw [significant_cons hb] at hd
    obtain ⟨rfl, hrest⟩ := List.cons.inj hd
    refine ⟨rfl, ?_, skipped_skip d⟩
    rw [advance, List.tail_cons, significant_skip, hrest]

theorem Skipped.cur_eq (h : Skipped d) : cur d = (significant d).headD 0 := by
  cases d with
  | nil => rfl
  | cons b d =>
    have hb : b ∉ ignoreAll := h b rfl
    rw [significant_cons hb]
    rfl

theorem skip_length (d : Bytes) : (skip d).length ≤ d.length := (List.dropWhile_suffix _).length_le

theorem advance_length (h : cur d ≠ 0) : (advance d).length < d.length := by
  cases d with
  | nil => exact absurd rfl h
  | cons b d => exact Nat.lt_succ_of_le (skip_length d)

theorem advance_length_le (d : Bytes) : (advance d).length ≤ d.length := by
  cases d with
  | nil => exact Nat.le_refl _
  | cons b d => exact Nat.le_succ_of_le (skip_length d)

end

theorem JsonError.rc_ne_zero (e : JsonError) (position : Nat) : e.rc position ≠ 0 := by
  intro h
  have hcode : Int32.ofNat e.code ≠ 0 := by cases e <;> decide
  refine hcode (Int32.or_eq_zero_iff (b := Int32.ofNat (position * 16)).mp ?_).1
  rwa [rc, ← Int32.toBitVec_inj, Int32.toBitVec_neg, Int32.toBitVec_zero, BitVec.neg_eq_zero_iff,
    ← Int32.toBitVec_zero, Int32.toBitVec_inj] at h

end AfbBinder.WrapJson
