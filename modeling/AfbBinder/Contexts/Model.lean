import AfbBinder.Sessions.Closing
import AfbBinder.Sessions.Cookies

/-! The context of a request that has no super context: its session, the key of its api and
its flags, with the LOA kept as a cookie beside the one of the api. -/
namespace AfbBinder.Contexts
open Lib.Cstrings Sessions

structure Flags where
  created : Bool
  validated : Bool
  invalidated : Bool
  refreshing : Bool
  refreshed : Bool
  closing : Bool
  closed : Bool
  deriving DecidableEq, Repr

def Flags.none : Flags := ⟨false, false, false, false, false, false, false⟩

structure Context where
  session : Option SessionId
  apiKey : Nat
  flags : Flags
  deriving DecidableEq, Repr

def Context.start : Context := ⟨none, 0, .none⟩

variable (s : SessionSet) (c : Context)

def Context.setFlags (f : Flags → Flags) : Context := { c with flags := f c.flags }

def initContext (s : SessionSet) (i : SessionId) : Option Bytes → Context
  | none => ⟨some i, 0, .none⟩
  | some token =>
    if afbSessionCheckToken s i token then ⟨some i, 0, { Flags.none with validated := true }⟩
    else ⟨some i, 0, { Flags.none with invalidated := true }⟩

def afbContextInit (i : SessionId) (token : Option Bytes) : SessionSet × Context :=
  (afbSessionAddref s i, initContext (afbSessionAddref s i) i token)

/-- The flag of afb_session_get: the uuid is not the one of a session of the set. -/
def getCreates (uuid : Option Bytes) : Bool :=
  uuid.all fun uuid =>
    (sessionsetSearch (sessionsetCleanup s false) uuid (pearson4 uuid)).isNone

/-- The result of the call, with the context when a session was got. -/
def afbContextConnect (uuid token : Option Bytes) (news : List Bytes) (mem : Bool) :
    Option (Except Errno Context × SessionSet) :=
  (afbSessionGet s uuid AFB_SESSION_TIMEOUT_DEFAULT news mem).map fun r =>
    match r.1 with
    | .error e => (.error e, r.2)
    | .ok i =>
      (.ok ((initContext r.2 i token).setFlags fun f => { f with created := getCreates s uuid }), r.2)

/-- In the functions that assert the session, none is the failed assertion. -/
def afbContextMake (replace : Bool) (makecb freecb : Option Nat) (closure : Nat) (mem : Bool) :
    Option (Nat × SessionSet) :=
  c.session.map fun i => afbSessionCookie s i c.apiKey makecb freecb closure replace mem

def afbContextGet : Option (Nat × SessionSet) :=
  c.session.map fun i => afbSessionGetCookie s i c.apiKey

def afbContextSet (value : Nat) (freecb : Option Nat) (mem : Bool) : Option (Int × SessionSet) :=
  c.session.map fun i => afbSessionSetCookie s i c.apiKey value freecb mem

def afbContextClose : Context := c.setFlags fun f => { f with closing := true }

/-- new is the result of new_uuid. -/
def afbContextRefresh (new : Bytes) : Option (SessionSet × Context) :=
  if c.flags.validated then
    if c.flags.refreshed then some (s, c.setFlags fun f => { f with refreshing := true })
    else c.session.map fun i => (afbSessionNewToken s i new,
      c.setFlags fun f => { f with refreshing := true, refreshed := true })
  else none

def afbContextCheck : Bool := c.flags.validated

/-- The key of the LOA is the address after the one of the api. -/
def loaKey : Nat := (1 + c.apiKey) % 2 ^ 64

def ptr2loa (ptr : Nat) : Nat := ptr % 2 ^ 32

def afbContextChangeLoa (loa : Nat) (mem : Bool) : Option (Int × SessionSet) :=
  if !c.flags.validated ∨ 7 < loa then some (-1, s)
  else c.session.map fun i => afbSessionSetCookie s i (loaKey c) loa none mem

def afbContextGetLoa : Option Nat :=
  c.session.map fun i => ptr2loa (afbSessionGetCookie s i (loaKey c)).1

def afbContextCheckLoa (loa : Nat) : Option Bool :=
  (afbContextGetLoa s c).map fun l => decide (loa ≤ l)

def afbContextSentToken (new : Bytes) : Option Bytes × SessionSet × Context :=
  match c.session with
  | none => (none, s, c)
  | some i =>
    if c.flags.closing ∨ !c.flags.refreshing then (none, s, c)
    else if c.flags.refreshed then (some (s.session i).token, s, c)
    else
      let s := afbSessionNewToken s i new
      (some (s.session i).token, s, c.setFlags fun f => { f with refreshed := true })

/-- The closing of the context: the LOA, then the cookie of the api. The results of both are
not looked at. -/
def closeContext (mem mem' : Bool) : SessionSet :=
  let s := ((afbContextChangeLoa s c 0 mem).map Prod.snd).getD s
  ((afbContextSet s c 0 none mem').map Prod.snd).getD s

def afbContextDisconnect (new : Bytes) (mem mem' : Bool) : SessionSet × Context :=
  match c.session with
  | none => (s, c)
  | some i =>
    let r := if c.flags.refreshing ∧ !c.flags.refreshed then
        (afbSessionNewToken s i new, c.setFlags fun f => { f with refreshed := true })
      else (s, c)
    let r := if c.flags.closing ∧ !c.flags.closed then
        (closeContext r.1 r.2 mem mem', r.2.setFlags fun f => { f with closed := true })
      else r
    (afbSessionUnref r.1 i, { r.2 with session := none })

end AfbBinder.Contexts
