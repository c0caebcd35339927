import AfbBinder.Apiset.Names

/-! Sets shared through counted references: those of the users, and one for each set that has
the set as subset. A set is freed with the last of them. -/
namespace AfbBinder.Apiset
open Lib.Cstrings

/-- Ghosts: which sets were freed, and the references that the users own. The contents of a
freed set are gone, and a freed descriptor keeps its last value. -/
structure Shared extends World where
  refcount : SetId → Int
  freed : SetId → Bool
  owned : SetId → Nat

def Shared.empty : Shared where
  toWorld := .empty
  refcount _ := 0
  freed _ := false
  owned _ := 0

/-- Search of the class of the name, a fresh one if it lacks. -/
def classSearchCreate (w : World) (name : Bytes) (mem : Bool) : Option ClassId × World :=
  match w.allClasses.find? fun c => strcasecmp name (w.classes c).name = .eq with
  | some c => (some c, w)
  | none =>
    if mem then
      (some w.classCount, { w with
        classes := Function.update w.classes w.classCount ⟨name, []⟩
        allClasses := w.classCount :: w.allClasses
        classCount := w.classCount + 1 })
    else (none, w)

/-- Add the item to the array, if not there. -/
def apiArrayAdd (l : List Nat) (x : Nat) (mem : Bool) : Option (List Nat) :=
  if x ∈ l then some l else if mem then some (l ++ [x]) else none

/-- The depend is fresh memory, that no item of the array equals. -/
def afbApisetRequire (w : World) (set : SetId) (name required : Bytes) (mem : Bool) : World :=
  match w.find set name with
  | none => w
  | some a =>
    if mem then { w with
      descs := Function.update w.descs a
        { w.descs a with requireApis := (w.descs a).requireApis ++ [⟨set, required⟩] } }
    else w

def afbApisetRequireClass (w : World) (set : SetId) (apiname classname : Bytes)
    (memClass mem : Bool) : World :=
  match w.find set apiname, classSearchCreate w classname memClass with
  | some a, (some c, w) =>
    match apiArrayAdd (w.descs a).requireClasses c mem with
    | some l => { w with
        descs := Function.update w.descs a { w.descs a with requireClasses := l } }
    | none => w
  | _, (_, w) => w

def afbApisetProvideClass (w : World) (set : SetId) (apiname classname : Bytes)
    (memClass mem : Bool) : World :=
  match w.find set apiname, classSearchCreate w classname memClass with
  | some a, (some c, w) =>
    match apiArrayAdd (w.classes c).providers a mem with
    | some l => { w with
        classes := Function.update w.classes c { w.classes c with providers := l } }
    | none => w
  | _, (_, w) => w

namespace Shared

def afbApisetCreate (s : Shared) : Shared :=
  { s with
    toWorld := Apiset.afbApisetCreate s.toWorld
    refcount := Function.update s.refcount s.setCount 1 }

/-- The reference of the new set is that of the link to it. -/
def afbApisetCreateSubsetFirst (s : Shared) (set : SetId) : Shared :=
  { s with
    toWorld := Apiset.afbApisetCreateSubsetFirst s.toWorld set
    refcount := Function.update s.refcount s.setCount 1 }

def afbApisetCreateSubsetLast (s : Shared) (set : SetId) : Shared :=
  s.afbApisetCreateSubsetFirst ((subsets s.toWorld set).getLastD set)

def afbApisetAddref (s : Shared) : Option SetId → Shared
  | none => s
  | some set => { s with refcount := Function.update s.refcount set (s.refcount set + 1) }

def free (s : Shared) (set : SetId) : Shared :=
  { s with
    sets := Function.update s.sets set ⟨[], [], none⟩
    freed := Function.update s.freed set true }

/-- The set is freed here before its subset loses the reference, in the source after; nothing
is read of it meanwhile. The fuel bounds the recursion along the subsets. -/
def unrefFrom : Nat → Shared → Option SetId → Shared
  | _, s, none => s
  | 0, s, some _ => s
  | fuel + 1, s, some set =>
    let t := { s with refcount := Function.update s.refcount set (s.refcount set - 1) }
    if s.refcount set - 1 = 0 then unrefFrom fuel (free t set) (s.sets set).subset else t

def afbApisetUnref (s : Shared) (set : Option SetId) : Shared := unrefFrom s.setCount s set

def afbApisetSubsetSet (s : Shared) (set : SetId) (subset : Option SetId) : Int × Shared :=
  if subset.any fun x => set ∈ subsets s.toWorld x then (-1, s)
  else
    let t := { s.afbApisetAddref subset with toWorld := setSubset s.toWorld set subset }
    (0, t.afbApisetUnref (s.sets set).subset)

/-- The calls of the users. A set that cannot be allocated is no call here. -/
inductive Act where
  | create
  | createSubsetFirst (set : Option SetId)
  | createSubsetLast (set : Option SetId)
  | subsetSet (set : SetId) (subset : Option SetId)
  | addref (set : SetId)
  | unref (set : SetId)
  | add (set : SetId) (name : Bytes) (serviceStart mem : Bool)
  | addAlias (set : SetId) (name aliasName : Bytes) (mem : Bool)
  | del (set : SetId) (name : Bytes)
  | require (set : SetId) (name required : Bytes) (mem : Bool)
  | requireClass (set : SetId) (apiname classname : Bytes) (memClass mem : Bool)
  | provideClass (set : SetId) (apiname classname : Bytes) (memClass mem : Bool)
  deriving DecidableEq, Repr

def Live (s : Shared) (set : SetId) : Prop := set < s.setCount ∧ s.freed set = false

instance (s : Shared) (set : SetId) : Decidable (s.Live set) :=
  inferInstanceAs (Decidable (_ ∧ _))

def own (s : Shared) (set : SetId) (n : Nat) : Shared :=
  { s with owned := Function.update s.owned set n }

/-- The users pass sets that are not freed and drop the references that they own. -/
def step (s : Shared) : Act → Option Shared
  | .create | .createSubsetFirst none | .createSubsetLast none =>
    some (own s.afbApisetCreate s.setCount 1)
  | .createSubsetFirst (some set) =>
    if s.Live set then some (s.afbApisetCreateSubsetFirst set) else none
  | .createSubsetLast (some set) =>
    if s.Live set then some (s.afbApisetCreateSubsetLast set) else none
  | .subsetSet set subset =>
    if s.Live set ∧ subset.all (fun x => decide (s.Live x)) then
      some (s.afbApisetSubsetSet set subset).2
    else none
  | .addref set =>
    if s.Live set then some (own (s.afbApisetAddref (some set)) set (s.owned set + 1)) else none
  | .unref set =>
    if 0 < s.owned set then some ((own s set (s.owned set - 1)).afbApisetUnref (some set))
    else none
  | .add set name serviceStart mem =>
    if s.Live set then
      some { s with toWorld := settle s.toWorld (afbApisetAdd s.toWorld set name serviceStart mem) }
    else none
  | .addAlias set name aliasName mem =>
    if s.Live set then
      some { s with toWorld := settle s.toWorld (afbApisetAddAlias s.toWorld set name aliasName mem) }
    else none
  | .del set name =>
    if s.Live set then some { s with toWorld := settle s.toWorld (afbApisetDel s.toWorld set name) }
    else none
  | .require set name required mem =>
    if s.Live set then some { s with toWorld := afbApisetRequire s.toWorld set name required mem }
    else none
  | .requireClass set apiname classname memClass mem =>
    if s.Live set then
      some { s with toWorld := afbApisetRequireClass s.toWorld set apiname classname memClass mem }
    else none
  | .provideClass set apiname classname memClass mem =>
    if s.Live set then
      some { s with toWorld := afbApisetProvideClass s.toWorld set apiname classname memClass mem }
    else none

end Shared

end AfbBinder.Apiset
