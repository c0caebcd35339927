import Mathlib.Algebra.Group.Int.Defs
import Mathlib.Data.Fin.VecNotation
import Mathlib.Logic.Function.Basic
import AfbBinder.Lib.Cstrings

/-! Sessions: the hash table of 16 heads, the records and their three life cycles
(linked, closed, referenced). Counters are unbounded numbers, records are never
erased from the memory: the hooks tell which ones were destroyed. -/
namespace AfbBinder.Sessions
open Lib.Cstrings

abbrev SessionId := Nat

def SIZEUUID : Nat := 37
def INT_MAX : Int := 2 ^ 31 - 1
def MAX_EXPIRATION : Int := 2 ^ 63 - 1
def AFB_SESSION_TIMEOUT_DEFAULT : Int := -2

structure Cookie where
  key : Nat
  value : Nat
  freecb : Option Nat
  deriving DecidableEq, Repr

structure Session where
  refcount : Nat
  timeout : Int
  expiration : Int
  cookies : Fin 8 → List Cookie
  closed : Bool
  autoclose : Bool
  notinset : Bool
  uuid : Bytes
  token : Bytes

/-- What can be observed of the life of the sessions, in order: the hooks, and the
calls of the releasing functions of the cookies with the value released. -/
inductive Hook where
  | create (session : SessionId)
  | close (session : SessionId)
  | destroy (session : SessionId)
  | addref (session : SessionId)
  | unref (session : SessionId)
  | renew (session : SessionId)
  | freecb (session : SessionId) (freecb value : Nat)
  deriving DecidableEq, Repr

inductive Errno where
  | einval
  | enomem
  | ebusy
  deriving DecidableEq, Repr

/-- The global sessions, the memory of the records (created is the next free address),
the clock, and for each session the number of references its users hold. -/
structure SessionSet where
  count : Int
  max : Int
  timeout : Int
  heads : Fin 16 → List SessionId
  initok : Bytes
  session : SessionId → Session
  created : Nat
  now : Nat
  owned : SessionId → Nat
  hooks : List Hook

def calloc : Session :=
  ⟨0, 0, 0, fun _ => [], false, false, false, [], []⟩

def SessionSet.start : SessionSet :=
  ⟨0, 10, 3600, fun _ => [], [], fun _ => calloc, 0, 0, fun _ => 0, []⟩

def pearsonT : Fin 16 → Fin 16 :=
  ![4, 1, 6, 0, 9, 14, 11, 5, 2, 3, 12, 15, 10, 7, 8, 13]

def pearson4 (text : Bytes) : Fin 16 :=
  text.foldl (fun r c =>
    let r := pearsonT (r ^^^ Fin.ofNat 16 (15 &&& c.toNat))
    pearsonT (r ^^^ Fin.ofNat 16 (c.toNat >>> 4))) 0

namespace SessionSet
variable (s : SessionSet)

/-- Rewrite of the record of a session. -/
def modify (i : SessionId) (f : Session → Session) : SessionSet :=
  { s with session := Function.update s.session i (f (s.session i)) }

def emit (l : List Hook) : SessionSet := { s with hooks := s.hooks ++ l }

def own (i : SessionId) : SessionSet :=
  { s with owned := Function.update s.owned i (s.owned i + 1) }

def disown (i : SessionId) : SessionSet :=
  { s with owned := Function.update s.owned i (s.owned i - 1) }

end SessionSet

def sessionsetSearch (s : SessionSet) (uuid : Bytes) (hashidx : Fin 16) : Option SessionId :=
  (s.heads hashidx).find? fun i => strcmp uuid (s.session i).uuid = .eq

def sessionsetAdd (s : SessionSet) (i : SessionId) (hashidx : Fin 16) : Except Errno SessionSet :=
  if s.max ≠ 0 ∧ s.max ≤ s.count then .error .ebusy
  else .ok { s with
    heads := Function.update s.heads hashidx (i :: s.heads hashidx)
    count := s.count + 1 }

/-- The first of the successive results of new_uuid that no session has. -/
def sessionsetMakeUuid (s : SessionSet) (news : List Bytes) : Option Bytes :=
  news.find? fun uuid => (sessionsetSearch s uuid (pearson4 uuid)).isNone

def releases (i : SessionId) (session : Session) : List Hook :=
  (List.finRange 8).flatMap fun idx =>
    (session.cookies idx).filterMap fun c => c.freecb.map (.freecb i · c.value)

def sessionClose (s : SessionSet) (i : SessionId) : SessionSet :=
  if (s.session i).closed then s
  else (s.emit (.close i :: releases i (s.session i))).modify i
    fun session => { session with closed := true, cookies := fun _ => [] }

def sessionDestroy (s : SessionSet) (i : SessionId) : SessionSet := s.emit [.destroy i]

def afbSessionTimeout (s : SessionSet) (session : Session) : Int :=
  let timeout :=
    if session.timeout = AFB_SESSION_TIMEOUT_DEFAULT then s.timeout else session.timeout
  if timeout < 0 then INT_MAX else timeout

/-- The sum is negative exactly when it does not fit in time_t. -/
def expirationFrom (now : Nat) (timeout : Int) : Int :=
  if MAX_EXPIRATION < now + timeout then MAX_EXPIRATION else now + timeout

def sessionUpdateExpiration (s : SessionSet) (session : Session) : Session :=
  { session with expiration := expirationFrom s.now (afbSessionTimeout s session) }

/-- Allocation and initialisation of a session, then its link in the set; mem tells
whether calloc succeeds. -/
def sessionAdd (s : SessionSet) (uuid : Bytes) (timeout : Int) (hashidx : Fin 16) (mem : Bool) :
    Except Errno (SessionId × SessionSet) :=
  if timeout < AFB_SESSION_TIMEOUT_DEFAULT ∨ SIZEUUID ≤ uuid.length then .error .einval
  else if mem then
    let i := s.created
    let session := sessionUpdateExpiration s
      { calloc with refcount := 1, uuid, token := s.initok, timeout }
    match sessionsetAdd { s with created := i + 1 } i hashidx with
    | .error e => .error e
    | .ok linked => .ok (i, (linked.modify i fun _ => session).emit [.create i])
  else .error .enomem

/-- The session leaves the set: it is destroyed when no one references it. -/
def cleanupOut (s : SessionSet) (i : SessionId) : SessionSet :=
  let s := { s with count := s.count - 1 }.modify i fun session =>
    { session with notinset := true }
  if (s.session i).refcount = 0 then sessionDestroy s i else s

/-- The loop over the sessions of one head: what stays linked, and the set. -/
def cleanupHead (force : Bool) : List SessionId → SessionSet → List SessionId × SessionSet
  | [], s => ([], s)
  | i :: rest, s =>
    let s := if force ∨ (s.session i).expiration < s.now then sessionClose s i else s
    if (s.session i).closed then cleanupHead force rest (cleanupOut s i)
    else
      let r := cleanupHead force rest s
      (i :: r.1, r.2)

def cleanupIdx (force : Bool) (s : SessionSet) (idx : Fin 16) : SessionSet :=
  let r := cleanupHead force (s.heads idx) s
  { r.2 with heads := Function.update r.2.heads idx r.1 }

def sessionsetCleanup (s : SessionSet) (force : Bool) : SessionSet :=
  (List.finRange 16).foldl (cleanupIdx force) s

/-- new is the result of new_uuid, used when no initial token is given. -/
def afbSessionInit (s : SessionSet) (maxSessionCount timeout : Int) (initok : Option Bytes)
    (new : Bytes) : Except Errno SessionSet :=
  if initok.any fun t => SIZEUUID ≤ t.length then .error .einval
  else .ok { sessionsetCleanup s true with
    max := maxSessionCount
    timeout := timeout
    initok := initok.getD new }

def afbSessionPurge (s : SessionSet) : SessionSet := sessionsetCleanup s false

def afbSessionAddref (s : SessionSet) (i : SessionId) : SessionSet :=
  (s.emit [.addref i]).modify i fun session => { session with refcount := session.refcount + 1 }

def afbSessionUnref (s : SessionSet) (i : SessionId) : SessionSet :=
  let s := (s.emit [.unref i]).modify i fun session =>
    { session with refcount := session.refcount - 1 }
  if (s.session i).refcount = 0 then
    let s := if (s.session i).autoclose then sessionClose s i else s
    if (s.session i).notinset then sessionDestroy s i else s
  else s

def afbSessionSearch (s : SessionSet) (uuid : Bytes) : Option SessionId × SessionSet :=
  let s := sessionsetCleanup s false
  match sessionsetSearch s uuid (pearson4 uuid) with
  | some i => (some i, afbSessionAddref s i)
  | none => (none, s)

/-- The session of the uuid, or a new one. news are the results of new_uuid up to the
first one that is not used: the call does not return when there is none. -/
def afbSessionGet (s : SessionSet) (uuid : Option Bytes) (timeout : Int) (news : List Bytes)
    (mem : Bool) : Option (Except Errno SessionId × SessionSet) :=
  let s := sessionsetCleanup s false
  let add (uuid : Bytes) : Except Errno SessionId × SessionSet :=
    match sessionAdd s uuid timeout (pearson4 uuid) mem with
    | .ok (i, s) => (.ok i, s)
    | .error e => (.error e, s)
  match uuid with
  | none => (sessionsetMakeUuid s news).map add
  | some uuid =>
    match sessionsetSearch s uuid (pearson4 uuid) with
    | some i => some (.ok i, afbSessionAddref s i)
    | none => some (add uuid)

def afbSessionCreate (s : SessionSet) (timeout : Int) (news : List Bytes) (mem : Bool) :
    Option (Except Errno SessionId × SessionSet) :=
  afbSessionGet s none timeout news mem

def afbSessionClose (s : SessionSet) (i : SessionId) : SessionSet := sessionClose s i

def afbSessionSetAutoclose (s : SessionSet) (i : SessionId) (autoclose : Bool) : SessionSet :=
  s.modify i fun session => { session with autoclose }

/-- new is the result of new_uuid. -/
def afbSessionNewToken (s : SessionSet) (i : SessionId) (new : Bytes) : SessionSet :=
  (s.modify i fun session => sessionUpdateExpiration s { session with token := new }).emit
    [.renew i]

/-- What afb_session_cookie does to the list of the cookies of one index: the list
after, the value returned, the calls of the releasing function. makecb is the value
made by that function when it is given. -/
def cookieScan (key : Nat) (makecb freecb : Option Nat) (closure : Nat) (replace mem : Bool) :
    List Cookie → List Cookie × Nat × List (Nat × Nat)
  | [] =>
    let value := makecb.getD closure
    if replace ∨ makecb.isSome ∨ freecb.isSome then
      if mem then ([⟨key, value, freecb⟩], value, [])
      else ([], 0, if makecb.isSome then (freecb.map (·, value)).toList else [])
    else ([], value, [])
  | cookie :: rest =>
    if cookie.key = key then
      if replace then
        let value := makecb.getD closure
        let freed := if cookie.value ≠ value then (cookie.freecb.map (·, cookie.value)).toList else []
        if value = 0 ∧ freecb = none then (rest, value, freed)
        else (⟨key, value, freecb⟩ :: rest, value, freed)
      else (cookie :: rest, cookie.value, [])
    else
      let r := cookieScan key makecb freecb closure replace mem rest
      (cookie :: r.1, r.2)

/-- Index of a key, a pointer given as a number of 64 bits. -/
def cookeyidx (key : Nat) : Fin 8 := Fin.ofNat 8 ((key >>> 5) ^^^ (key >>> 15))

def afbSessionCookie (s : SessionSet) (i : SessionId) (key : Nat) (makecb freecb : Option Nat)
    (closure : Nat) (replace mem : Bool) : Nat × SessionSet :=
  let idx := cookeyidx key
  let r := cookieScan key makecb freecb closure replace mem ((s.session i).cookies idx)
  (r.2.1, (s.emit (r.2.2.map fun f => .freecb i f.1 f.2)).modify i fun session =>
    { session with cookies := Function.update session.cookies idx r.1 })

/-- The functions that users of sessions call, with what the environment answers. -/
inductive Op where
  | init (maxSessionCount timeout : Int) (initok : Option Bytes) (new : Bytes)
  | get (uuid : Option Bytes) (timeout : Int) (news : List Bytes) (mem : Bool)
  | search (uuid : Bytes)
  | addref (session : SessionId)
  | unref (session : SessionId)
  | close (session : SessionId)
  | setAutoclose (session : SessionId) (autoclose : Bool)
  | newToken (session : SessionId) (new : Bytes)
  | cookie (session : SessionId) (key : Nat) (makecb freecb : Option Nat) (closure : Nat)
      (replace mem : Bool)
  | purge
  | tick (seconds : Nat)

/-- The reference that a call returned, counted to its caller. -/
def given : Option SessionId × SessionSet → SessionSet
  | (some i, s) => s.own i
  | (none, s) => s

/-- A session is only used by the owner of a reference to it. -/
def step (s : SessionSet) : Op → Option SessionSet
  | .init maxSessionCount timeout initok new =>
    some ((afbSessionInit s maxSessionCount timeout initok new).toOption.getD s)
  | .get uuid timeout news mem =>
    (afbSessionGet s uuid timeout news mem).map fun r => given (r.1.toOption, r.2)
  | .search uuid => some (given (afbSessionSearch s uuid))
  | .addref i => if 0 < s.owned i then some ((afbSessionAddref s i).own i) else none
  | .unref i => if 0 < s.owned i then some ((afbSessionUnref s i).disown i) else none
  | .close i => if 0 < s.owned i then some (afbSessionClose s i) else none
  | .setAutoclose i b => if 0 < s.owned i then some (afbSessionSetAutoclose s i b) else none
  | .newToken i new => if 0 < s.owned i then some (afbSessionNewToken s i new) else none
  | .cookie i key makecb freecb closure replace mem =>
    if 0 < s.owned i then
      some (afbSessionCookie s i key makecb freecb closure replace mem).2
    else none
  | .purge => some (afbSessionPurge s)
  | .tick seconds => some { s with now := s.now + seconds }

end AfbBinder.Sessions
