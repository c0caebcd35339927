import AfbBinder.Lib.Chains
import AfbBinder.Apiset.Search

/-! Sets linked as subsets, the enumeration of the names of a set and of its subsets, and
the array of names built from it in two passes over one block of memory. -/
namespace AfbBinder.Apiset
open Lib.Chains Lib.Cstrings

/-- The set and its subsets. A chain has at most one node for each set. -/
def subsets (w : World) (set : SetId) : List SetId :=
  walk (fun s => (w.sets s).subset) w.setCount set

/-- searchrec, with a bound that the length of a chain never reaches. -/
def World.find (w : World) (set : SetId) (name : Bytes) : Option DescId :=
  searchrec w.descs w.sets name w.setCount set

def setSubset (w : World) (set : SetId) (subset : Option SetId) : World :=
  { w with sets := Function.update w.sets set { w.sets set with subset } }

def afbApisetCreateSubsetFirst (w : World) (set : SetId) : World :=
  let result := w.setCount
  setSubset (setSubset (afbApisetCreate w) result (w.sets set).subset) set (some result)

def afbApisetCreateSubsetLast (w : World) (set : SetId) : World :=
  afbApisetCreateSubsetFirst w ((subsets w set).getLastD set)

/-- Refused when the set is in the chain of the subset. -/
def afbApisetSubsetSet (w : World) (set : SetId) (subset : Option SetId) : World :=
  if subset.any fun s => set ∈ subsets w s then w else setSubset w set subset

/-- The calls that build sets and link them. -/
inductive Build where
  | op (op : Op)
  | createSubsetFirst (set : SetId)
  | createSubsetLast (set : SetId)
  | subsetSet (set : SetId) (subset : Option SetId)
  deriving DecidableEq, Repr

def build (w : World) : Build → Option World
  | .op op => step w op
  | .createSubsetFirst set =>
      if set < w.setCount then some (afbApisetCreateSubsetFirst w set) else none
  | .createSubsetLast set =>
      if set < w.setCount then some (afbApisetCreateSubsetLast w set) else none
  | .subsetSet set subset =>
      if set < w.setCount ∧ subset.all (· < w.setCount) then some (afbApisetSubsetSet w set subset)
      else none

/-- A call of the callback of afb_apiset_enum. -/
structure Call where
  set : SetId
  name : Bytes
  isalias : Bool
  deriving DecidableEq, Repr

/-- The calls made for the apis of one array and for the aliases of iset. -/
def enumFrom (w : World) (set : SetId) (apis : List DescId) (iset : SetId) : List Call :=
  (apis.filter fun d => w.find set (w.descs d).name = some d).map
      (fun d => ⟨iset, (w.descs d).name, false⟩) ++
    ((w.sets iset).aliases.filter fun a => w.find set a.name = some a.api).map
      fun a => ⟨iset, a.name, true⟩

/-- In each turn the source reads the array of set, not the one of iset. -/
def afbApisetEnum (w : World) (set : SetId) (recursive : Bool) : List Call :=
  (if recursive then subsets w set else [set]).flatMap (enumFrom w set (w.sets set).apis)

def sizeofPointer : Nat := 8

/-- The type that gets used: 1 names, 2 aliases, 3 both. -/
def namesType (type : Int) : Nat := if 1 ≤ type ∧ type ≤ 3 then type.toNat else 1

def expected (type : Nat) (c : Call) : Bool := (1 + c.isalias.toNat) &&& type ≠ 0

/-- First pass: the count of the names and the sum of their lengths. -/
def getNamesCount (type : Nat) (gc : Nat × Nat) (c : Call) : Nat × Nat :=
  if expected type c then (gc.1 + 1, gc.2 + c.name.length) else gc

/-- The second pass: ptr is the index of the next pointer and data the offset of the next
name in the block; writes are the offsets and lengths written so far. -/
structure Filling where
  ptr : Nat
  data : Nat
  names : List Bytes
  writes : List (Nat × Nat)
  deriving DecidableEq, Repr

def getNamesValue (type : Nat) (gc : Filling) (c : Call) : Filling :=
  if expected type c then
    ⟨gc.ptr + 1, gc.data + c.name.length + 1, gc.names ++ [c.name],
      gc.writes ++ [(gc.ptr * sizeofPointer, sizeofPointer), (gc.data, c.name.length + 1)]⟩
  else gc

/-- The block given back: its size, what was written in it, the names in their order. -/
structure Names where
  size : Nat
  writes : List (Nat × Nat)
  names : List Bytes
  deriving DecidableEq, Repr

def afbApisetGetNames (w : World) (set : SetId) (recursive : Bool) (type : Int) (mem : Bool) :
    Option Names :=
  let type := namesType type
  let calls := afbApisetEnum w set recursive
  let gc := calls.foldl (getNamesCount type) (0, 0)
  if mem then
    let filled := calls.foldl (getNamesValue type) ⟨0, (gc.1 + 1) * sizeofPointer, [], []⟩
    some ⟨gc.2 + gc.1 * (1 + sizeofPointer) + sizeofPointer,
      filled.writes ++ [(filled.ptr * sizeofPointer, sizeofPointer)],
      filled.names.mergeSort fun a b => (strcasecmp a b).isLE⟩
  else none

end AfbBinder.Apiset
