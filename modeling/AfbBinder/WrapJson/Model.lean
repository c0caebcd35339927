import Mathlib.Data.Int.Order.Basic
import AfbBinder.WrapJson.Values

/-! The comparison of JSON values. An equality of pointers only shortens it, and is not modelled:
a value compares as equal with itself. -/
namespace AfbBinder.WrapJson
open Lib.Cstrings

variable {D : Type}

/-- json_object_array_sort, as one call of wrap_json_cmp has it: it leaves a permutation of the
items. It gives the comparator pointers to the items, where wrap_json_cmp expects the items, so
that the order is the one of the memory, new at each call. The call sorts at most the keys of two
objects that do not list the same ones, hence the function of the list. -/
structure ArraySort (D : Type) where
  run : List (Json D) → List (Json D)
  perm : ∀ items, (run items).Perm items

def wrapJsonSort (sort : ArraySort D) : Json D → Json D
  | .array items => .array (sort.run items)
  | j => j

/-- The keys of an object, none for what is not an object. -/
def wrapJsonKeys (sort : ArraySort D) : Json D → Json D
  | .object members => wrapJsonSort sort (.array ((names members).map .string))
  | _ => .null

/-- The sign of strcmp. -/
def strcmpSign (a b : Bytes) : Int :=
  match strcmp a b with
  | .lt => -1
  | .eq => 0
  | .gt => 1

/-- The difference of the counts, that inclusion accepts when it is positive. The lengths of arrays are
converted to int before: this is left out, for arrays have fewer than 2^31 items here. -/
def countDiff (inc : Bool) (nx ny : Nat) : Int :=
  if 0 < (nx : Int) - ny ∧ inc then 0 else nx - ny

section
variable [LinearOrder D] (keyscmp : Json D → Json D → Option Int) (inc sort : Bool)

mutual

/-- jcmp, over the comparison of two lists of keys. The result is none when the loop over the
keys does not end. -/
def jcmpWith : Json D → Json D → Option Int
  | .boolean x, .boolean y => some (x.toInt - y.toInt)
  | .double x, .double y => some (if x < y then -1 else if y < x then 1 else 0)
  | .int x, .int y => some (if x < y then -1 else if y < x then 1 else 0)
  | .object xs, .object ys =>
    if countDiff inc xs.length ys.length ≠ 0 then some (countDiff inc xs.length ys.length)
    else jcmpMembers xs ys ys
  | .array xs, .array ys =>
    if countDiff inc xs.length ys.length ≠ 0 then some (countDiff inc xs.length ys.length)
    else jcmpItems xs ys
  | .string x, .string y => some (strcmpSign x y)
  | x, y => some (x.type - y.type)
termination_by structural _ y => y

/-- The loop over the members of y, from the iterator on. A key that x lacks does not advance
the iterator: if the lists of keys compare as equal, the same iteration is done for ever. -/
def jcmpMembers (xs ys : List (Bytes × Json D)) : List (Bytes × Json D) → Option Int
  | [] => some 0
  | (name, jy) :: rest =>
    match objectGet name xs with
    | some jx => (jcmpWith jx jy).bind fun r => if r ≠ 0 then some r else jcmpMembers xs ys rest
    | none =>
      if sort then
        (keyscmp (.object xs) (.object ys)).bind fun r => if r ≠ 0 then some r else none
      else some 1
termination_by structural y => y

/-- The loop over the items of y; past its end the array x gives null. -/
def jcmpItems : List (Json D) → List (Json D) → Option Int
  | _, [] => some 0
  | [], jy :: ys => (jcmpWith .null jy).bind fun r => if r ≠ 0 then some r else jcmpItems [] ys
  | jx :: xs, jy :: ys => (jcmpWith jx jy).bind fun r => if r ≠ 0 then some r else jcmpItems xs ys
termination_by structural _ y => y

end

end

section
variable [LinearOrder D] (sort : ArraySort D)

/-- The comparison of two lists of keys, where no object is met. -/
def keysCmp (x y : Json D) : Option Int :=
  jcmpWith (fun _ _ => none) false true (wrapJsonKeys sort x) (wrapJsonKeys sort y)

def jcmp (x y : Json D) (inc srt : Bool) : Option Int := jcmpWith (keysCmp sort) inc srt x y

def wrapJsonCmp (x y : Json D) : Option Int := jcmp sort x y false true

/-- The negation of C. -/
def logicalNot (r : Int) : Int := if r = 0 then 1 else 0

def wrapJsonEqual (x y : Json D) : Option Int := (jcmp sort x y false false).map logicalNot

def wrapJsonContains (x y : Json D) : Option Int := (jcmp sort x y true false).map logicalNot

end

end AfbBinder.WrapJson
