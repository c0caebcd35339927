import Mathlib.Order.Lattice
import AfbBinder.Lib.Cstrings

/-! The values of the JSON library. -/
namespace AfbBinder.WrapJson
open Lib.Cstrings

/-- A JSON value. An object lists its members in the order of the iterators; the doubles
are those of any type. -/
inductive Json (D : Type) where
  | null
  | boolean (b : Bool)
  | double (d : D)
  | int (i : Int)
  | object (members : List (Bytes × Json D))
  | array (items : List (Json D))
  | string (s : Bytes)

variable {D : Type}

/-- The number of the type of a value. -/
def Json.type : Json D → Int
  | .null => 0
  | .boolean _ => 1
  | .double _ => 2
  | .int _ => 3
  | .object _ => 4
  | .array _ => 5
  | .string _ => 6

def names (members : List (Bytes × Json D)) : List Bytes := members.map Prod.fst

/-- json_object_object_get_ex -/
def objectGet (name : Bytes) : List (Bytes × Json D) → Option (Json D)
  | [] => none
  | (key, v) :: rest => if key = name then some v else objectGet name rest

/-- The keys of an object are distinct; no text holds a NUL. -/
inductive Json.WellFormed : Json D → Prop
  | null : WellFormed .null
  | boolean (b : Bool) : WellFormed (.boolean b)
  | double (d : D) : WellFormed (.double d)
  | int (i : Int) : WellFormed (.int i)
  | object {members : List (Bytes × Json D)} (distinct : (names members).Nodup)
    (noNul : ∀ name ∈ names members, 0 ∉ name) (values : ∀ m ∈ members, m.2.WellFormed) :
    WellFormed (.object members)
  | array {items : List (Json D)} (values : ∀ v ∈ items, v.WellFormed) : WellFormed (.array items)
  | string {s : Bytes} (noNul : 0 ∉ s) : WellFormed (.string s)

structure Value (D : Type) where
  json : Json D
  wellFormed : json.WellFormed

section
variable {members : List (Bytes × Json D)} {name : Bytes} {v : Json D}

theorem objectGet_mem (h : objectGet name members = some v) : (name, v) ∈ members := by
  induction members with
  | nil => cases h
  | cons m rest ih =>
    rw [objectGet] at h
    split at h
    · next heq =>
      cases h
      rw [← heq]
      exact List.mem_cons_self
    · exact List.mem_cons_of_mem _ (ih h)

theorem objectGet_none : objectGet name members = none ↔ name ∉ names members := by
  induction members with
  | nil => simp [objectGet, names]
  | cons m rest ih =>
    rw [objectGet, names, List.map_cons, List.mem_cons, not_or]
    split
    · next heq => simp [heq]
    · next hne => exact ih.trans (and_iff_right (Ne.symm hne)).symm

theorem objectGet_some : (∃ v, objectGet name members = some v) ↔ name ∈ names members := by
  rw [← Option.isSome_iff_exists, ← not_iff_not, Bool.not_eq_true, Option.isSome_eq_false_iff,
    Option.isNone_iff_eq_none, objectGet_none]

theorem objectGet_of_mem (hd : (names members).Nodup) (hm : (name, v) ∈ members) :
    objectGet name members = some v := by
  induction members with
  | nil => cases hm
  | cons m rest ih =>
    obtain ⟨hnew, hrest⟩ := List.nodup_cons.mp hd
    rw [objectGet]
    rcases List.mem_cons.mp hm with rfl | hm
    · exact if_pos rfl
    · rw [if_neg, ih hrest hm]
      rintro rfl
      exact hnew (List.mem_map.mpr ⟨_, hm, rfl⟩)

end

/-- Induction over values: an object or an array comes after what it holds. -/
theorem Json.induct {P : Json D → Prop} (null : P .null) (boolean : ∀ b, P (.boolean b))
    (double : ∀ d, P (.double d)) (int : ∀ i, P (.int i))
    (object : ∀ members : List (Bytes × Json D), (∀ m ∈ members, P m.2) → P (.object members))
    (array : ∀ items : List (Json D), (∀ v ∈ items, P v) → P (.array items))
    (string : ∀ s, P (.string s)) : ∀ j, P j
  | .null => null
  | .boolean b => boolean b
  | .double d => double d
  | .int i => int i
  | .object members => object members fun m _ =>
      Json.induct null boolean double int object array string m.2
  | .array items => array items fun v _ =>
      Json.induct null boolean double int object array string v
  | .string s => string s
termination_by j => sizeOf j
decreasing_by
  · rename_i hm
    have := List.sizeOf_lt_of_mem hm
    cases m
    simp_all
    omega
  · rename_i hm
    have := List.sizeOf_lt_of_mem hm
    simp
    omega

end AfbBinder.WrapJson
