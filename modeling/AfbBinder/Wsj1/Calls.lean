import AfbBinder.Lib.Runs
import AfbBinder.Wsj1.Model

/-! The pending calls of an afb_wsj1: afb_wsj1_call_s, wsj1_on_text and the hangup of the
websocket, each of them a step. The calls are numbered in the order of afb_wsj1_call_s; the
number of a call stands for its callback and its closure. -/
namespace AfbBinder.Wsj1
open Lib.Cstrings Lib.Json Lib.Runs

structure Call where
  id : Bytes
  number : Nat
  deriving DecidableEq, Repr

/-- The callbacks that the user of an afb_wsj1 gave; on_call is not optional. -/
structure Itf where
  onEvent : Bool
  onHangup : Bool

inductive Event where
  | sent (text : Bytes)
  | close (code : Nat)
  | callback (number : Nat) (msg : Msg)
  | onCall (msg : Msg)
  | onEvent (msg : Msg)
  | onHangup
  deriving DecidableEq, Repr

def WEBSOCKET_CODE_POLICY_VIOLATION : Nat := 1008

/-- An afb_wsj1, with what the calls returned and what was told. -/
structure AfbWsj1 where
  genid : Nat
  calls : List Call
  connected : Bool
  results : List Int
  events : List Event
  deriving DecidableEq, Repr

namespace AfbWsj1

def start : AfbWsj1 where
  genid := 0
  calls := []
  connected := true
  results := []
  events := []

def tell (s : AfbWsj1) (es : List Event) : AfbWsj1 := { s with events := s.events ++ es }

/-- Nothing is sent once the websocket is disconnected. -/
def afbWsClose (s : AfbWsj1) (code : Nat) : AfbWsj1 := if s.connected then s.tell [.close code] else s

end AfbWsj1

/-- The call found, and the list once it is removed when this is asked. -/
def wsj1LockedCallSearch (calls : List Call) (id : Bytes) (remove : Bool) : Option Call × List Call :=
  (calls.find? fun r => strcmp r.id id = .eq,
    if remove then calls.eraseP fun r => strcmp r.id id = .eq else calls)

/-- The loop of wsj1_call_create from a value of genid: the first number that is not an id of
the list. None when each of the 999999 numbers is used: the loop never ends. -/
def nextId (calls : List Call) : Nat → Nat → Option Nat
  | 0, _ => none
  | n + 1, genid =>
    let id := if genid = 0 then 999999 else genid
    if (wsj1LockedCallSearch calls (decimal id) false).1.isSome then nextId calls n (id - 1) else some id

def wsj1CallCreate (s : AfbWsj1) : Option (Call × AfbWsj1) :=
  (nextId s.calls 999999 s.genid).map fun id =>
    let call := ⟨decimal id, s.results.length⟩
    (call, { s with genid := id - 1, calls := call :: s.calls })

/-- written is what the websocket returns for a text, negative for an error. -/
def afbWsj1CallS (s : AfbWsj1) (api verb : Bytes) (object : Option Bytes) (written : Int) : Option AfbWsj1 :=
  (wsj1CallCreate s).map fun p =>
    let s := p.2
    let sent := wsj1SendIssot s.connected .call p.1.id (api ++ slash :: verb) object none
    let rc := if sent.isSome then written else -1
    { s.tell (sent.toList.map .sent) with
      calls := if rc < 0 then (wsj1LockedCallSearch s.calls p.1.id true).2 else s.calls
      results := s.results ++ [rc] }

/-- The id of a reply. -/
def Msg.idString (msg : Msg) : Bytes := (msg.id.map (cstr msg.text)).getD []

def wsj1OnText (itf : Itf) (s : AfbWsj1) (text : Bytes) : AfbWsj1 :=
  match wsj1MsgMake text with
  | none => s.afbWsClose WEBSOCKET_CODE_POLICY_VIOLATION
  | some msg =>
    match msg.code with
    | .call => s.tell [.onCall msg]
    | .retok | .reterr =>
      let found := wsj1LockedCallSearch s.calls msg.idString true
      match found.1 with
      | none => s.afbWsClose WEBSOCKET_CODE_POLICY_VIOLATION
      | some call => { s.tell [.callback call.number msg] with calls := found.2 }
    | .event => if itf.onEvent then s.tell [.onEvent msg] else s

def errorObjectStr : Bytes :=
  ascii "\x7b\"jtype\":\"afb-reply\",\"request\":\x7b\"status\":\"disconnected\",\"info\":\"server hung up\"\x7d\x7d"

/-- The text of the reply made for a call when the websocket hangs up. -/
def hangupText (id : Bytes) : Bytes :=
  ascii "[" ++ decimal Code.reterr.toNat ++ ascii ",\"" ++ id ++ ascii "\"," ++ errorObjectStr ++ ascii "]"

def wsj1OnHangup (itf : Itf) (s : AfbWsj1) : AfbWsj1 :=
  let told := s.calls.filterMap fun call =>
    (wsj1MsgMake (hangupText call.id)).map fun msg => Event.callback call.number msg
  { s with calls := [], events := s.events ++ told ++ if itf.onHangup then [.onHangup] else [] }

def afbWsHangup (itf : Itf) (s : AfbWsj1) : AfbWsj1 :=
  if s.connected then wsj1OnHangup itf { s with connected := false } else s

inductive Action where
  | call (api verb : Bytes) (object : Option Bytes) (written : Int)
  | text (text : Bytes)
  | hangup
  deriving DecidableEq, Repr

/-- None when afb_wsj1_call_s does not return. -/
def step (itf : Itf) (s : AfbWsj1) : Action → Option AfbWsj1
  | .call api verb object written => afbWsj1CallS s api verb object written
  | .text text => some (wsj1OnText itf s text)
  | .hangup => some (afbWsHangup itf s)

end AfbBinder.Wsj1
