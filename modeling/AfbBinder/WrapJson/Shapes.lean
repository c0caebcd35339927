import AfbBinder.WrapJson.Unpacking

/-! Descriptors of vunpack as trees: their texts, their arguments, and what they mean for a value. -/
namespace AfbBinder.WrapJson
open Lib.Cstrings
open Lib.Json (lbracket rbracket lbrace rbrace)

/-- The block of a key, with its NUL. -/
abbrev KeyBlock := { m : Bytes // 0 ∈ m }

def KeyBlock.name (k : KeyBlock) : Bytes := k.1.takeWhile (· ≠ 0)

/-- The mark before the end of a container. -/
inductive Mark where
  | none
  | strict
  | rest
  deriving DecidableEq, Repr

def Mark.text : Mark → Bytes
  | .none => []
  | .strict => [bang]
  | .rest => [star]

/-- A descriptor with the addresses that its values are stored at. The members of an object have
the blocks of their keys, and tell whether they are optional. -/
inductive Shape where
  | null
  | string (p : Option Nat) (size : Option (Option Nat))
  | boolean (p : Option Nat)
  | int (p : Option Nat)
  | int64 (p : Option Nat)
  | double (int : Bool) (p : Option Nat)
  | any (own : Bool) (p : Option Nat)
  | bytes (url : Bool) (py pz : Option Nat)
  | array (items : List Shape) (mark : Mark)
  | object (members : List ((KeyBlock × Bool) × Shape)) (mark : Mark)

/-- Induction over shapes: a container comes after what it holds. -/
theorem Shape.induct {P : Shape → Prop} (null : P .null) (string : ∀ p size, P (.string p size))
    (boolean : ∀ p, P (.boolean p)) (int : ∀ p, P (.int p)) (int64 : ∀ p, P (.int64 p))
    (double : ∀ i p, P (.double i p)) (any : ∀ own p, P (.any own p)) (bytes : ∀ url py pz, P (.bytes url py pz))
    (array : ∀ (items : List Shape) mark, (∀ v ∈ items, P v) → P (.array items mark))
    (object : ∀ (members : List ((KeyBlock × Bool) × Shape)) mark, (∀ m ∈ members, P m.2) → P (.object members mark)) :
    ∀ v, P v
  | .null => null
  | .string p size => string p size
  | .boolean p => boolean p
  | .int p => int p
  | .int64 p => int64 p
  | .double i p => double i p
  | .any own p => any own p
  | .bytes url py pz => bytes url py pz
  | .array items mark => array items mark fun v _ =>
      Shape.induct null string boolean int int64 double any bytes array object v
  | .object members mark => object members mark fun m _ =>
      Shape.induct null string boolean int int64 double any bytes array object m.2
termination_by v => sizeOf v
decreasing_by
  · rename_i hm
    have := List.sizeOf_lt_of_mem hm
    simp
    omega
  · rename_i hm
    have := List.sizeOf_lt_of_mem hm
    cases m
    simp_all
    omega

/-- The character of a key, with the mark of those that are optional. -/
def keyText (optional : Bool) : Bytes := if optional then [lowerS, question] else [lowerS]

mutual

/-- The descriptor, but what is ignored in it. -/
def Shape.text : Shape → Bytes
  | .null => [lowerN]
  | .string _ none => [lowerS]
  | .string _ (some _) => [lowerS, percent]
  | .boolean _ => [lowerB]
  | .int _ => [lowerI]
  | .int64 _ => [upperI]
  | .double int _ => [if int then upperF else lowerF]
  | .any own _ => [if own then upperO else lowerO]
  | .bytes url _ _ => [if url then lowerY else upperY]
  | .array items mark => lbracket :: (shapesText items ++ (mark.text ++ [rbracket]))
  | .object members mark => lbrace :: (fieldsText members ++ (mark.text ++ [rbrace]))

def shapesText : List Shape → Bytes
  | [] => []
  | v :: items => v.text ++ shapesText items

def fieldsText : List ((KeyBlock × Bool) × Shape) → Bytes
  | [] => []
  | (k, v) :: members => keyText k.2 ++ (v.text ++ fieldsText members)

end

section
variable (store : Bool)

/-- The arguments that are taken only when the values are stored. -/
def stored (l : List UnpackArg) : List UnpackArg := if store then l else []

mutual

def Shape.args : Shape → List UnpackArg
  | .null => []
  | .string p none => stored store [.string p]
  | .string p (some pz) => stored store [.string p, .size pz]
  | .boolean p => stored store [.int p]
  | .int p => stored store [.int p]
  | .int64 p => stored store [.int64 p]
  | .double _ p => stored store [.double p]
  | .any _ p => stored store [.object p]
  | .bytes _ py pz => stored store [.bytes py, .size pz]
  | .array items _ => shapesArgs items
  | .object members _ => fieldsArgs members

def shapesArgs : List Shape → List UnpackArg
  | [] => []
  | v :: items => v.args ++ shapesArgs items

def fieldsArgs : List ((KeyBlock × Bool) × Shape) → List UnpackArg
  | [] => []
  | (k, v) :: members => .key (some k.1.1) :: (v.args ++ fieldsArgs members)

end

end

mutual

/-- How many slots the containers take. -/
def Shape.depth : Shape → Nat
  | .array items _ => shapesDepth items + 1
  | .object members _ => fieldsDepth members + 1
  | _ => 0

def shapesDepth : List Shape → Nat
  | [] => 0
  | v :: items => max v.depth (shapesDepth items)

def fieldsDepth : List ((KeyBlock × Bool) × Shape) → Nat
  | [] => 0
  | (_, v) :: members => max v.depth (fieldsDepth members)

end

/-! What a shape means. -/

/-- The stores that are made, and the error after them, if there is one. -/
structure Outcome (D : Type) where
  stores : List (Nat × Stored D)
  error : Option JsonError

section
variable {D : Type}

def Outcome.ok (l : List (Nat × Stored D)) : Outcome D := ⟨l, none⟩

def Outcome.fail (e : JsonError) : Outcome D := ⟨[], some e⟩

/-- What is done after it, unless there is an error. -/
def Outcome.andThen (o o' : Outcome D) : Outcome D :=
  match o.error with
  | none => ⟨o.stores ++ o'.stores, o'.error⟩
  | some _ => o

/-- The store at an address. -/
def storedAt (p : Option Nat) (x : Stored D) : List (Nat × Stored D) := (p.map fun p => (p, x)).toList

variable (doubles : Doubles D) (store : Bool)

/-- The address, when the values are stored. -/
def address (p : Option Nat) : Option Nat := if store then p else none

def valueOutcome (p : Option Nat) : Option (Stored D) → Outcome D
  | some x => .ok (storedAt (address store p) x)
  | none => .fail .missfitType

def sizeStores (o : JsonObject D) : Option (Option Nat) → List (Nat × Stored D)
  | some pz => storedAt (address store pz) (.size (UInt64.ofNat o.getString.length))
  | none => []

/-- The two stores of bytes, both or none. -/
def bytesStores (py pz : Option Nat) (data : Option Bytes) : List (Nat × Stored D) :=
  match py, pz with
  | some py, some pz => [(py, .bytes data), (pz, .size (UInt64.ofNat (data.getD []).length))]
  | _, _ => []

def bytesOutcome (py pz : Option Nat) : JsonObject D → Outcome D
  | .null => .ok (bytesStores py pz none)
  | .string s =>
    if py.isSome ∧ pz.isSome then
      match decodeBase64 s with
      | some data => .ok (bytesStores py pz (some data))
      | none => .fail .badBase64
    else .ok []
  | _ => .fail .missfitType

/-- The strict mark: the count is that of what was accessed. -/
def markOutcome (mark : Mark) (count index : Int32) : Outcome D :=
  if mark = .strict ∧ index ≠ count then .fail .incomplete else .ok []

mutual

/-- The unpacking of a value. -/
def Shape.meaning : Shape → JsonObject D → Outcome D
  | .null, o => if o.isNull then .ok [] else .fail .missfitType
  | .string p size, o => (valueOutcome store p (stringValue o)).andThen (.ok (sizeStores store o size))
  | .boolean p, o => valueOutcome store p (booleanValue o)
  | .int p, o => valueOutcome store p (intValue o)
  | .int64 p, o => valueOutcome store p (int64Value o)
  | .double int p, o => valueOutcome store p (doubleValue doubles int o)
  | .any _ p, o => valueOutcome store p (some (.object o))
  | .bytes _ py pz, o => bytesOutcome (address store py) (address store pz) o
  | .array items mark, .array js => shapesMeaning items mark js (Int32.ofNat js.length) 0
  | .array _ _, _ => .fail .missfitType
  | .object members mark, .object ms => fieldsMeaning members mark ms (Int32.ofNat ms.length) 0
  | .object _ _, _ => .fail .missfitType

def shapesMeaning : List Shape → Mark → List (JsonObject D) → Int32 → Int32 → Outcome D
  | [], mark, _, count, index => markOutcome mark count index
  | v :: items, mark, js, count, index =>
    if count ≤ index then .fail .outOfRange
    else (v.meaning (js.getD index.toNatClampNeg .null)).andThen (shapesMeaning items mark js count (index + 1))

def fieldsMeaning : List ((KeyBlock × Bool) × Shape) → Mark → List (Bytes × JsonObject D) → Int32 → Int32 → Outcome D
  | [], mark, _, count, index => markOutcome mark count index
  | (k, v) :: members, mark, ms, count, index =>
    match ms.lookup k.1.name with
    | some o => (v.meaning o).andThen (fieldsMeaning members mark ms count (index + 1))
    | none => if k.2 then fieldsMeaning members mark ms count index else .fail .keyNotFound

end

end

end AfbBinder.WrapJson
