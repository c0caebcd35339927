import Mathlib.Logic.Function.Basic
import AfbBinder.Lib.Bsearch
import AfbBinder.Lib.Cstrings

/-! Sets of apis: the sorted array of descriptors, the list of aliases, the classes
and the global list, as a heap addressed by numbers. Allocation failures are an
argument of the functions that allocate. -/
namespace AfbBinder.Apiset
open Lib.Bsearch Lib.Cstrings

abbrev SetId := Nat
abbrev DescId := Nat
abbrev ClassId := Nat

structure Depend where
  set : SetId
  name : Bytes
  deriving DecidableEq, Repr

/-- Descriptor of an api, less its status; serviceStart tells whether the interface
has that callback. -/
structure ApiDesc where
  name : Bytes
  serviceStart : Bool
  requireClasses : List ClassId
  requireApis : List Depend
  deriving DecidableEq, Repr

structure Alias where
  api : DescId
  name : Bytes
  deriving DecidableEq, Repr

structure ApiSet where
  apis : List DescId
  aliases : List Alias
  subset : Option SetId
  deriving DecidableEq, Repr

structure ApiClass where
  name : Bytes
  providers : List DescId
  deriving DecidableEq, Repr

/-- The memory of the module; the counts are the next free addresses. -/
structure World where
  sets : SetId → ApiSet
  descs : DescId → ApiDesc
  status : DescId → Int
  classes : ClassId → ApiClass
  allApis : List DescId
  allClasses : List ClassId
  setCount : Nat
  descCount : Nat
  classCount : Nat

def World.empty : World where
  sets _ := ⟨[], [], none⟩
  descs _ := ⟨[], false, [], []⟩
  status _ := -1
  classes _ := ⟨[], []⟩
  allApis := []
  allClasses := []
  setCount := 0
  descCount := 0
  classCount := 0

inductive Errno where
  | eexist
  | enoent
  | enomem
  deriving DecidableEq, Repr

/-- Scan of the aliases, stopped by the first one above the name. -/
def searchAliases (name : Bytes) : List Alias → Option DescId
  | [] => none
  | a :: rest =>
    match strcasecmp a.name name with
    | .eq => some a.api
    | .gt => none
    | .lt => searchAliases name rest

/-- Dichotomic search of the api, then linear search of the aliases. -/
def search (descs : DescId → ApiDesc) (set : ApiSet) (name : Bytes) : Option DescId :=
  match bsearch (fun i => strcasecmp (descs (set.apis.getD i 0)).name name)
      set.apis.length 0 set.apis.length with
  | some i => set.apis[i]?
  | none => searchAliases name set.aliases

/-- Search in the set and then along its subsets, at most fuel of them. -/
def searchrec (descs : DescId → ApiDesc) (sets : SetId → ApiSet) (name : Bytes) :
    Nat → SetId → Option DescId
  | 0, set => search descs (sets set) name
  | fuel + 1, set => (search descs (sets set) name).or
      ((sets set).subset.bind (searchrec descs sets name fuel))

def afbApisetCreate (w : World) : World :=
  { w with
    sets := Function.update w.sets w.setCount ⟨[], [], none⟩
    setCount := w.setCount + 1 }

/-- Insertion before the first api whose name is above the given one. -/
def insertApi (descs : DescId → ApiDesc) (name : Bytes) (d : DescId) : List DescId → List DescId
  | [] => [d]
  | a :: rest =>
    if strcasecmp (descs a).name name = .gt then d :: a :: rest
    else a :: insertApi descs name d rest

def afbApisetAdd (w : World) (set : SetId) (name : Bytes) (serviceStart mem : Bool) :
    Except Errno World :=
  if (search w.descs (w.sets set) name).isSome then .error .eexist
  else if mem then
    let d := w.descCount
    .ok { w with
      sets := Function.update w.sets set
        { w.sets set with apis := insertApi w.descs name d (w.sets set).apis }
      descs := Function.update w.descs d ⟨name, serviceStart, [], []⟩
      status := Function.update w.status d (-1)
      allApis := d :: w.allApis
      descCount := d + 1 }
  else .error .enomem

/-- Insertion before the first alias that is not below the given one. The source
compares with strcmp here, where the scans compare with strcasecmp. -/
def insertAlias (new : Alias) : List Alias → List Alias
  | [] => [new]
  | a :: rest =>
    if strcmp a.name new.name = .lt then a :: insertAlias new rest else new :: a :: rest

def afbApisetAddAlias (w : World) (set : SetId) (name aliasName : Bytes) (mem : Bool) :
    Except Errno World :=
  if (search w.descs (w.sets set) aliasName).isSome then .error .eexist
  else match search w.descs (w.sets set) name with
    | none => .error .enoent
    | some api =>
      if mem then .ok { w with
        sets := Function.update w.sets set
          { w.sets set with aliases := insertAlias ⟨api, aliasName⟩ (w.sets set).aliases } }
      else .error .enomem

/-- Remove the alias of the name, with the early stop of the scan. -/
def delAlias (name : Bytes) : List Alias → Option (List Alias)
  | [] => none
  | a :: rest =>
    match strcasecmp a.name name with
    | .eq => some rest
    | .gt => none
    | .lt => (delAlias name rest).map (a :: ·)

/-- The api of the name in the array, with the early stop of the scan. -/
def findApi (descs : DescId → ApiDesc) (name : Bytes) : List DescId → Option DescId
  | [] => none
  | a :: rest =>
    match strcasecmp (descs a).name name with
    | .eq => some a
    | .gt => none
    | .lt => findApi descs name rest

/-- Remove the last occurrence below the index, its place taken by the last item. -/
def apiArrayDel (l : List Nat) (x : Nat) : Nat → List Nat
  | 0 => l
  | i + 1 => if l[i]? = some x then (l.set i (l.getLastD 0)).dropLast else apiArrayDel l x i

def afbApisetDel (w : World) (set : SetId) (name : Bytes) : Except Errno World :=
  match delAlias name (w.sets set).aliases with
  | some rest => .ok { w with
      sets := Function.update w.sets set { w.sets set with aliases := rest } }
  | none =>
    match findApi w.descs name (w.sets set).apis with
    | none => .error .enoent
    | some d => .ok { w with
        classes := fun c => if c ∈ w.allClasses then
          { w.classes c with
            providers := apiArrayDel (w.classes c).providers d (w.classes c).providers.length }
          else w.classes c
        allApis := w.allApis.erase d
        sets := Function.update w.sets set { w.sets set with
          aliases := (w.sets set).aliases.filter (·.api ≠ d)
          apis := (w.sets set).apis.erase d } }

end AfbBinder.Apiset
