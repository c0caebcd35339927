import Mathlib.Data.List.TakeWhile
import AfbBinder.WrapJson.Blocks
import AfbBinder.WrapJson.Unpacking

/-! Descriptors as trees, with the arguments of their packing and of their unpacking. -/
namespace AfbBinder.WrapJson
open Lib.Cstrings
open Lib.Json (lbracket rbracket lbrace rbrace)

/-- The text at the start of a block. -/
def ctext (m : Bytes) : Bytes := m.takeWhile (· ≠ 0)

/-- An item of a descriptor: what is packed for it, the texts and the bytes being at the start of a
block of memory, then the addresses where it is unpacked. The keys are also in blocks. -/
inductive Item where
  | null
  | boolean (b : Int32) (p : Nat)
  | int (i : Int32) (p : Nat)
  | int64 (i : Int64) (p : Nat)
  | string (m : Bytes) (p : Nat)
  | stringLen (m : Bytes) (n : UInt64) (p pz : Nat)
  | bytes (url : Bool) (m : Option Bytes) (n : UInt64) (p pz : Nat)
  | array (items : List Item)
  | object (members : List (Bytes × Item))

/-- Induction over items: a container comes after what it holds. -/
theorem Item.induct {P : Item → Prop} (null : P .null) (boolean : ∀ b p, P (.boolean b p))
    (int : ∀ i p, P (.int i p)) (int64 : ∀ i p, P (.int64 i p)) (string : ∀ m p, P (.string m p))
    (stringLen : ∀ m n p pz, P (.stringLen m n p pz)) (bytes : ∀ url m n p pz, P (.bytes url m n p pz))
    (array : ∀ items : List Item, (∀ item ∈ items, P item) → P (.array items))
    (object : ∀ members : List (Bytes × Item), (∀ m ∈ members, P m.2) → P (.object members)) :
    ∀ item, P item
  | .null => null
  | .boolean b p => boolean b p
  | .int i p => int i p
  | .int64 i p => int64 i p
  | .string m p => string m p
  | .stringLen m n p pz => stringLen m n p pz
  | .bytes url m n p pz => bytes url m n p pz
  | .array items => array items fun item _ =>
      Item.induct null boolean int int64 string stringLen bytes array object item
  | .object members => object members fun m _ =>
      Item.induct null boolean int int64 string stringLen bytes array object m.2
termination_by item => sizeOf item
decreasing_by
  · rename_i hm
    have := List.sizeOf_lt_of_mem hm
    simp
    omega
  · rename_i hm
    have := List.sizeOf_lt_of_mem hm
    cases m
    simp_all
    omega

mutual

/-- The descriptor, but what is ignored in it. -/
def Item.text : Item → Bytes
  | .null => [lowerN]
  | .boolean _ _ => [lowerB]
  | .int _ _ => [lowerI]
  | .int64 _ _ => [upperI]
  | .string _ _ => [lowerS]
  | .stringLen _ _ _ _ => [lowerS, percent]
  | .bytes url _ _ _ _ => [if url then lowerY else upperY]
  | .array items => lbracket :: (itemsText items ++ [rbracket])
  | .object members => lbrace :: (membersText members ++ [rbrace])

def itemsText : List Item → Bytes
  | [] => []
  | item :: items => item.text ++ itemsText items

def membersText : List (Bytes × Item) → Bytes
  | [] => []
  | (_, item) :: members => lowerS :: (item.text ++ membersText members)

end

section
variable {D : Type}

mutual

def Item.packArgs : Item → List (PackArg D)
  | .null => []
  | .boolean b _ => [.int b]
  | .int i _ => [.int i]
  | .int64 i _ => [.int64 i]
  | .string m _ => [.pointer (some m)]
  | .stringLen m n _ _ => [.pointer (some m), .size n]
  | .bytes _ m n _ _ => [.pointer m, .size n]
  | .array items => itemsPackArgs items
  | .object members => membersPackArgs members

def itemsPackArgs : List Item → List (PackArg D)
  | [] => []
  | item :: items => item.packArgs ++ itemsPackArgs items

def membersPackArgs : List (Bytes × Item) → List (PackArg D)
  | [] => []
  | (k, item) :: members => .pointer (some k) :: (item.packArgs ++ membersPackArgs members)

end

end

mutual

def Item.unpackArgs : Item → List UnpackArg
  | .null => []
  | .boolean _ p => [.int (some p)]
  | .int _ p => [.int (some p)]
  | .int64 _ p => [.int64 (some p)]
  | .string _ p => [.string (some p)]
  | .stringLen _ _ p pz => [.string (some p), .size (some pz)]
  | .bytes _ _ _ p pz => [.bytes (some p), .size (some pz)]
  | .array items => itemsUnpackArgs items
  | .object members => membersUnpackArgs members

def itemsUnpackArgs : List Item → List UnpackArg
  | [] => []
  | item :: items => item.unpackArgs ++ itemsUnpackArgs items

def membersUnpackArgs : List (Bytes × Item) → List UnpackArg
  | [] => []
  | (k, item) :: members => .key (some k) :: (item.unpackArgs ++ membersUnpackArgs members)

end

section
variable {D : Type}

mutual

/-- What is to be stored: the packed values. -/
def Item.stores : Item → List (Nat × Stored D)
  | .null => []
  | .boolean b p => [(p, .int b)]
  | .int i p => [(p, .int i)]
  | .int64 i p => [(p, .int64 i)]
  | .string m p => [(p, .string (ctext m))]
  | .stringLen m n p pz => [(p, .string (m.take n.toNat)), (pz, .size n)]
  | .bytes _ m n p pz => [(p, .bytes (some ((m.getD []).take n.toNat))), (pz, .size n)]
  | .array items => itemsStores items
  | .object members => membersStores members

def itemsStores : List Item → List (Nat × Stored D)
  | [] => []
  | item :: items => item.stores ++ itemsStores items

def membersStores : List (Bytes × Item) → List (Nat × Stored D)
  | [] => []
  | (_, item) :: members => item.stores ++ membersStores members

end

end

mutual

def Item.depth : Item → Nat
  | .array items => itemsDepth items + 1
  | .object members => membersDepth members + 1
  | _ => 0

def itemsDepth : List Item → Nat
  | [] => 0
  | item :: items => max item.depth (itemsDepth items)

def membersDepth : List (Bytes × Item) → Nat
  | [] => 0
  | (_, item) :: members => max item.depth (membersDepth members)

end

/-- A block in memory with a text at its start. -/
def Text (m : Bytes) : Prop := 0 ∈ m ∧ m.length < 2 ^ 64

mutual

/-- The arguments match: the texts and the bytes are within their blocks, and the keys of an object
are distinct. -/
def Item.Valid : Item → Prop
  | .string m _ => Text m
  | .stringLen m n _ _ => n.toNat ≤ m.length
  | .bytes _ m n _ _ => n.toNat ≤ (m.getD []).length
  | .array items => ItemsValid items
  | .object members => (members.map fun m => ctext m.1).Nodup ∧ MembersValid members
  | _ => True

def ItemsValid : List Item → Prop
  | [] => True
  | item :: items => item.Valid ∧ ItemsValid items

def MembersValid : List (Bytes × Item) → Prop
  | [] => True
  | (k, item) :: members => Text k ∧ item.Valid ∧ MembersValid members

end

mutual

/-- The sizes of the strings and of the keys, in the order of the descriptor. -/
def Item.sizes : Item → List Nat
  | .string m _ => [(ctext m).length]
  | .stringLen _ n _ _ => [n.toNat]
  | .array items => itemsSizes items
  | .object members => membersSizes members
  | _ => []

def itemsSizes : List Item → List Nat
  | [] => []
  | item :: items => item.sizes ++ itemsSizes items

def membersSizes : List (Bytes × Item) → List Nat
  | [] => []
  | (k, item) :: members => (ctext k).length :: (item.sizes ++ membersSizes members)

end

mutual

/-- The other lengths that the code takes as an int: those of the texts of bytes, and of the arrays. -/
def Item.lengths : Item → List Nat
  | .bytes _ _ n _ _ => [nout n.toNat]
  | .array items => items.length :: itemsLengths items
  | .object members => membersLengths members
  | _ => []

def itemsLengths : List Item → List Nat
  | [] => []
  | item :: items => item.lengths ++ itemsLengths items

def membersLengths : List (Bytes × Item) → List Nat
  | [] => []
  | (_, item) :: members => item.lengths ++ membersLengths members

end

theorem length_mem_sizes {members : List (Bytes × Item)} {m : Bytes × Item} (h : m ∈ members) :
    (ctext m.1).length ∈ membersSizes members := by
  induction members with
  | nil => cases h
  | cons m' members ih =>
    rcases List.mem_cons.mp h with rfl | h
    · exact List.mem_cons_self
    · exact List.mem_cons_of_mem _ (List.mem_append_right _ (ih h))

/-- The lengths are ints, and the strings are within the buffer of the function or the last block. -/
def Item.Fits (item : Item) : Prop :=
  (∀ n ∈ item.sizes ++ item.lengths, n < 2 ^ 31) ∧ Contained (256, 256) item.sizes

end AfbBinder.WrapJson
