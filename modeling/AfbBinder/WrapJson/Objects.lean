import Mathlib.Algebra.Group.Int.Defs
import Mathlib.Algebra.Group.Nat.Defs
import Mathlib.Data.Int.Order.Basic
import AfbBinder.Lib.Cstrings

/-! The objects of the JSON library, as the interpreters of descriptors use them: the numbers have
the types of C, and the texts their lengths. -/
namespace AfbBinder.WrapJson
open Lib.Cstrings

/-- A json_object, null being NULL. The boolean is the int that was given for it. -/
inductive JsonObject (D : Type) where
  | null
  | boolean (b : Int32)
  | double (d : D)
  | int (i : Int64)
  | string (s : Bytes)
  | array (items : List (JsonObject D))
  | object (members : List (Bytes × JsonObject D))

/-- json_object_new_string_len: it copies the bytes of the block, when they are as many as the length.
What it does for other lengths is not said, but the length of a string is an int. -/
structure StringMaker where
  newStringLen : Bytes → Int32 → Option Bytes
  copies : ∀ (s : Bytes) (n : Nat), n < 2 ^ 31 → n ≤ s.length → newStringLen s (Int32.ofNat n) = some (s.take n)
  length_lt : ∀ {s r : Bytes} {len : Int32}, newStringLen s len = some r → r.length < 2 ^ 31

/-- A maker that takes what there is, and no byte for a length below zero. -/
def takingMaker : StringMaker where
  newStringLen s len := some (s.take len.toNatClampNeg)
  copies s n hn _ := by rw [Int32.toNatClampNeg_ofNat_of_lt hn]
  length_lt {s r len} h := by
    cases h
    have := Int32.toNatClampNeg_lt len
    rw [List.length_take]
    omega

section
variable {D : Type}

def JsonObject.isNull : JsonObject D → Bool
  | .null => true
  | _ => false

/-- json_object_array_add, that adds to nothing but an array. -/
def JsonObject.arrayAdd (a x : JsonObject D) : JsonObject D :=
  match a with
  | .array items => .array (items ++ [x])
  | a => a

/-- The member of the name gets the value, or a new one is added. -/
def setMember (name : Bytes) (x : JsonObject D) :
    List (Bytes × JsonObject D) → List (Bytes × JsonObject D)
  | [] => [(name, x)]
  | (key, v) :: rest => if key = name then (key, x) :: rest else (key, v) :: setMember name x rest

/-- json_object_object_add, for the name that the text begins with. -/
def JsonObject.objectAdd (o : JsonObject D) (text : Bytes) (x : JsonObject D) : JsonObject D :=
  match o with
  | .object members => .object (setMember (text.takeWhile (· ≠ 0)) x members)
  | o => o

/-- json_object_get_string, of a string. -/
def JsonObject.getString : JsonObject D → Bytes
  | .string s => s
  | _ => []

/-- json_object_get_int, of an int: the nearest one of 32 bits. -/
def getInt (i : Int64) : Int32 :=
  if i.toInt < -2 ^ 31 then Int32.ofInt (-2 ^ 31)
  else if 2 ^ 31 - 1 < i.toInt then Int32.ofInt (2 ^ 31 - 1)
  else i.toInt32

/-- The count of the items or of the members. -/
def JsonObject.length : JsonObject D → Nat
  | .array items => items.length
  | .object members => members.length
  | _ => 0

theorem getInt_toInt64 (i : Int32) : getInt i.toInt64 = i := by
  have hlow := Int32.le_toInt i
  have hhigh := Int32.toInt_lt i
  rw [getInt, Int32.toInt_toInt64, if_neg (by omega), if_neg (by omega), Int32.toInt32_toInt64]

variable {name other : Bytes} {x : JsonObject D} {members : List (Bytes × JsonObject D)}

theorem lookup_setMember_self : (setMember name x members).lookup name = some x := by
  induction members with
  | nil => rw [setMember, List.lookup_cons_self]
  | cons m rest ih =>
    rw [setMember]
    split
    · next h => rw [h, List.lookup_cons_self]
    · next h => rw [List.lookup_cons, beq_false_of_ne (Ne.symm h), ih]

theorem lookup_setMember_of_ne (h : other ≠ name) :
    (setMember name x members).lookup other = members.lookup other := by
  induction members with
  | nil => rw [setMember, List.lookup_cons, beq_false_of_ne h]
  | cons m rest ih =>
    rw [setMember, List.lookup_cons]
    split
    · next hm => rw [List.lookup_cons, hm, beq_false_of_ne h]
    · rw [List.lookup_cons, ih]

theorem mem_setMember (h : other ∈ (setMember name x members).map Prod.fst) :
    other = name ∨ other ∈ members.map Prod.fst := by
  induction members with
  | nil => exact .inl (List.mem_singleton.mp h)
  | cons m rest ih =>
    rw [setMember] at h
    split at h
    · exact .inr h
    · rcases List.mem_cons.mp h with h | h
      · exact .inr (h ▸ List.mem_cons_self)
      · exact (ih h).imp_right (List.mem_cons_of_mem _)

theorem mem_of_lookup (h : members.lookup name = some x) : name ∈ members.map Prod.fst := by
  induction members with
  | nil => cases h
  | cons m rest ih =>
    rw [List.lookup_cons] at h
    split at h
    · next hm => exact eq_of_beq hm ▸ List.mem_cons_self
    · exact List.mem_cons_of_mem _ (ih h)

end

end AfbBinder.WrapJson
