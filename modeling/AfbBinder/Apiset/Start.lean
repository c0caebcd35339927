import Mathlib.Data.List.Nodup
import Mathlib.Tactic.Cases
import AfbBinder.Apiset.Model

/-! Starting the apis of a registry: start_api recurs through the classes and the
apis that an api requires, with the status both as result and as cycle mark. -/
namespace AfbBinder.Apiset
open Lib.Cstrings

def EBUSY : Int := 16
def ECANCELED : Int := 125
def ENOENT : Nat := 2

/-- A finite registry whose subset chains end, as afb_apiset_subset_set ensures.
Declarations are arbitrary: cycles and missing apis are allowed. -/
structure Registry extends World where
  rank : SetId → Nat
  acyclic : ∀ i j, (sets i).subset = some j → rank j < rank i
  apisLt : ∀ i, ∀ d ∈ (sets i).apis, d < descCount
  aliasesLt : ∀ i, ∀ a ∈ (sets i).aliases, a.api < descCount
  providersLt : ∀ c, ∀ d ∈ (classes c).providers, d < descCount

/-- The search along the subsets; the rank bounds the length of the chain. -/
def Registry.find (r : Registry) (set : SetId) (name : Bytes) : Option DescId :=
  searchrec r.descs r.sets name (r.rank set) set

/-- The ways to ask for a start, from outside or from a service_start callback. -/
inductive Request (n : Nat) where
  | startApi (api : Fin n)
  | startService (set : SetId) (name : Bytes)
  | classStart (name : Bytes)
  | startAllServices (set : SetId)

/-- What a service_start callback does: it may ask for other starts, then it returns
a result and leaves an error number, zero or positive. -/
structure Answer (n : Nat) where
  asks : List (Request n)
  rc : Int
  errno : Nat

/-- The mutable part, with ghost logs: the statuses met by each call of service_start,
the results of the activations, and every return of start_api with the status then. -/
structure Progress where
  status : DescId → Int
  errno : Nat
  calls : List (DescId × (DescId → Int))
  ends : List (DescId × Int)
  returns : List (DescId × Int × Int)

/-- The status that afb_apiset_add gives. -/
def Progress.init : Progress := ⟨fun _ => -1, 0, [], [], []⟩

def Progress.setStatus (s : Progress) (d : DescId) (v : Int) : Progress :=
  { s with status := Function.update s.status d v }

@[simp] theorem Progress.setStatus_self (s : Progress) (d : DescId) (v : Int) :
    (s.setStatus d v).status d = v := Function.update_self ..

theorem Progress.setStatus_of_ne (s : Progress) {d e : DescId} (v : Int) (h : e ≠ d) :
    (s.setStatus d v).status e = s.status e := Function.update_of_ne h ..

def Progress.returned (s : Progress) (d : DescId) (rc : Int) : Progress :=
  { s with returns := s.returns ++ [(d, rc, s.status d)] }

abbrev Start (α : Type) := α → Progress → Option (Int × Progress)

/-- The loop of start_array_apis, start_array_classes and start_array_depends, over the
items in the order of the loop: all are tried and the last failure is the result. -/
def startArray {α : Type} (start : Start α) : List α → Int → Progress → Option (Int × Progress)
  | [], rc, s => some (rc, s)
  | x :: rest, rc, s => (start x s).bind fun (rc2, s) =>
      startArray start rest (if rc2 < 0 then rc2 else rc) s

def startClass (r : Registry) (start : Start DescId) (c : ClassId) :
    Progress → Option (Int × Progress) :=
  startArray start (r.classes c).providers.reverse 0

def startDepend (r : Registry) (start : Start DescId) (d : Depend) (s : Progress) :
    Option (Int × Progress) :=
  match r.find d.set d.name with
  | none => some (-1, s)
  | some a => start a s

def startArrayClasses (r : Registry) (start : Start DescId) (l : List ClassId) :
    Progress → Option (Int × Progress) :=
  startArray (startClass r start) l.reverse 0

def startArrayDepends (r : Registry) (start : Start DescId) (l : List Depend) :
    Progress → Option (Int × Progress) :=
  startArray (startDepend r start) l.reverse 0

/-- The apis of the set and of its subsets, in the order of afb_apiset_start_all_services. -/
def chainApis (sets : SetId → ApiSet) : Nat → SetId → List DescId
  | 0, set => (sets set).apis
  | fuel + 1, set => (sets set).apis ++
      match (sets set).subset with
      | some sub => chainApis sets fuel sub
      | none => []

def classSearch (r : Registry) (name : Bytes) : Option ClassId :=
  r.allClasses.find? fun c => strcasecmp name (r.classes c).name = .eq

def request (r : Registry) (start : Start DescId) : Start (Request r.descCount)
  | .startApi api, s => start api s
  | .startService set name, s =>
    match r.find set name with
    | none => some (-1, { s with errno := ENOENT })
    | some d => start d s
  | .classStart name, s =>
    match classSearch r name with
    | none => some (-1, { s with errno := ENOENT })
    | some c => startClass r start c s
  | .startAllServices set, s => startArray start (chainApis r.sets (r.rank set) set) 0 s

def requests (r : Registry) (start : Start DescId) :
    List (Request r.descCount) → Progress → Option Progress
  | [], s => some s
  | q :: rest, s => (request r start q s).bind fun (_, s) => requests r start rest s

/-- The call of service_start; its behaviour may depend on all that happened before,
of which the number of calls is a name. -/
def serviceStart (r : Registry) (service : DescId → Nat → Answer r.descCount)
    (start : Start DescId) (d : DescId) (s : Progress) : Option (Int × Progress) :=
  let a := service d s.calls.length
  (requests r start a.asks { s with calls := s.calls ++ [(d, s.status)] }).map fun s =>
    (a.rc, { s with errno := a.errno })

/-- What start_api does between the two updates of the status. -/
def startBody (r : Registry) (service : DescId → Nat → Answer r.descCount)
    (start : Start DescId) (d : DescId) (s : Progress) : Option (Int × Progress) :=
  (startArrayClasses r start (r.descs d).requireClasses s).bind fun (rc, s) =>
    if rc < 0 then some (rc, s)
    else (startArrayDepends r start (r.descs d).requireApis s).bind fun (rc, s) =>
      if rc < 0 then some (rc, s)
      else if (r.descs d).serviceStart then serviceStart r service start d s
      else some (rc, s)

/-- One activation a unit of fuel along the recursion. -/
def startApi (r : Registry) (service : DescId → Nat → Answer r.descCount) :
    Nat → Start DescId
  | 0, _, _ => none
  | fuel + 1, d, s =>
    if s.status d = 0 then some (0, s.returned d 0)
    else if 0 < s.status d then
      some (-1, Progress.returned { s with errno := (s.status d).toNat } d (-1))
    else
      (startBody r service (startApi r service fuel) d (s.setStatus d EBUSY)).map fun (rc, s) =>
        if rc < 0 then
          let s := s.setStatus d (if s.errno = 0 then ECANCELED else s.errno)
          (-1, Progress.returned { s with ends := s.ends ++ [(d, -1)] } d (-1))
        else
          let s := s.setStatus d 0
          (0, Progress.returned { s with ends := s.ends ++ [(d, 0)] } d 0)

/-- What the api requires is started, under the given statuses. -/
def Ready (r : Registry) (d : DescId) (status : DescId → Int) : Prop :=
  (∀ c ∈ (r.descs d).requireClasses, ∀ p ∈ (r.classes c).providers, status p = 0) ∧
    ∀ q ∈ (r.descs d).requireApis, ∃ a, r.find q.set q.name = some a ∧ status a = 0

end AfbBinder.Apiset
