import AfbBinder.Events.Model

/-! Events across a stub: the messages that the listener of a server sends, and what the
client does with them. Bytes are left to the protocol: a message has the fields its
sender wrote and its receiver read. -/
namespace AfbBinder.Stub
open Lib.Cstrings Events

/-- What names an event on a connection: the two parts client_event_search compares. -/
structure Key where
  id : Int
  name : Bytes
  deriving DecidableEq, Repr

/-- The messages from the server to the client. -/
inductive Message (J : Type) where
  | reply (callid : UInt32)
  | eventCreate (key : Key)
  | eventRemove (key : Key)
  | eventSubscribe (callid : UInt32) (key : Key)
  | eventUnsubscribe (callid : UInt32) (key : Key)
  | eventPush (key : Key) (obj : J)
  | eventBroadcast (name : Bytes) (obj : J)
  deriving DecidableEq, Repr

/-- An event of the server recorded by the client, with the watches of its local event:
the activity of each listener, none without a watch. -/
structure ClientEvent where
  key : Key
  refcount : Nat
  activity : Lis → Option Nat

structure ClientCall where
  callid : UInt32
  request : Nat
  deriving DecidableEq, Repr

/-- The client of a connection. replies has the requests replied, pushed the events given
to the local listeners, unreadable the pushes of unknown events. -/
structure Client (J : Type) where
  calls : List ClientCall
  events : List ClientEvent
  replies : List Nat
  pushed : List (Key × J)
  broadcasted : List (Bytes × J)
  unreadable : List Key

variable {J : Type}

def Client.start : Client J := ⟨[], [], [], [], [], []⟩

def clientEventSearch (c : Client J) (key : Key) : Option ClientEvent :=
  c.events.find? (·.key = key)

def clientCallSearch (c : Client J) (callid : UInt32) : Option ClientCall :=
  c.calls.find? (·.callid = callid)

/-- The event that the search finds, rewritten. -/
def modifyEvent (key : Key) (f : ClientEvent → ClientEvent) : List ClientEvent → List ClientEvent
  | [] => []
  | ev :: rest => if ev.key = key then f ev :: rest else ev :: modifyEvent key f rest

/-- mem tells whether the record and the local event can be allocated. -/
def clientOnEventCreateCb (mem : Bool) (c : Client J) (key : Key) : Client J :=
  match clientEventSearch c key with
  | some _ =>
    { c with events := modifyEvent key (fun ev => { ev with refcount := ev.refcount + 1 }) c.events }
  | none => if mem then { c with events := ⟨key, 1, fun _ => none⟩ :: c.events } else c

def clientOnEventRemoveCb (c : Client J) (key : Key) : Client J :=
  match clientEventSearch c key with
  | some ev =>
    if ev.refcount - 1 ≠ 0 then
      { c with
        events := modifyEvent key (fun ev => { ev with refcount := ev.refcount - 1 }) c.events }
    else { c with events := c.events.eraseP (·.key = key) }
  | none => c

/-- The watch of a listener added to the local event, when it can be allocated. -/
def watchAdd (mem : Bool) (l : Lis) (ev : ClientEvent) : ClientEvent :=
  match ev.activity l with
  | some n => { ev with activity := Function.update ev.activity l (some ((n + 1) % 2 ^ 32)) }
  | none => if mem then { ev with activity := Function.update ev.activity l (some 1) } else ev

def watchSub (l : Lis) (ev : ClientEvent) : ClientEvent :=
  match ev.activity l with
  | some n => { ev with activity := Function.update ev.activity l (some (n - 1)) }
  | none => ev

section
variable (listener : Nat → Option Lis)

/-- The listener of a request is NULL when it can not subscribe. -/
def clientOnEventSubscribeCb (mem : Bool) (c : Client J) (request : Nat) (key : Key) : Client J :=
  match clientEventSearch c key, listener request with
  | some _, some l => { c with events := modifyEvent key (watchAdd mem l) c.events }
  | _, _ => c

def clientOnEventUnsubscribeCb (c : Client J) (request : Nat) (key : Key) : Client J :=
  match clientEventSearch c key, listener request with
  | some _, some l => { c with events := modifyEvent key (watchSub l) c.events }
  | _, _ => c

def clientOnEventPushCb (c : Client J) (key : Key) (obj : J) : Client J :=
  match clientEventSearch c key with
  | some _ => { c with pushed := c.pushed ++ [(key, obj)] }
  | none => { c with unreadable := c.unreadable ++ [key] }

def clientOnEventBroadcastCb (c : Client J) (name : Bytes) (obj : J) : Client J :=
  { c with broadcasted := c.broadcasted ++ [(name, obj)] }

/-- The reply is given to the request and the call is forgotten. -/
def clientOnReply (c : Client J) (callid : UInt32) : Client J :=
  match clientCallSearch c callid with
  | some call =>
    { c with calls := c.calls.erase call, replies := c.replies ++ [call.request] }
  | none => c

/-- A job of client_on_binary_job: what it does with the message. -/
def clientOnMessage (mem : Bool) (c : Client J) : Message J → Client J
  | .reply callid => clientOnReply c callid
  | .eventCreate key => clientOnEventCreateCb mem c key
  | .eventRemove key => clientOnEventRemoveCb c key
  | .eventSubscribe callid key =>
    match clientCallSearch c callid with
    | some call => clientOnEventSubscribeCb listener mem c call.request key
    | none => c
  | .eventUnsubscribe callid key =>
    match clientCallSearch c callid with
    | some call => clientOnEventUnsubscribeCb listener c call.request key
    | none => c
  | .eventPush key obj => clientOnEventPushCb c key obj
  | .eventBroadcast name obj => clientOnEventBroadcastCb c name obj

/-- Messages processed one after the other, memory being there. -/
def processed (c : Client J) (ms : List (Message J)) : Client J :=
  ms.foldl (clientOnMessage listener true) c

end

/-- server_event_itf, which has every callback. -/
def serverEventItf : Itf := ⟨true, true, true, true⟩

/-- The message that the callback of the listener of a server sends, while its proto is
there; the calls of the other listeners send nothing on this connection. -/
def serverEventMessage (l : Lis) : Call J → Option (Message J)
  | .add t => if t.listener = l then some (.eventCreate ⟨t.id, t.event⟩) else none
  | .remove t => if t.listener = l then some (.eventRemove ⟨t.id, t.event⟩) else none
  | .push t obj => if t.listener = l then some (.eventPush ⟨t.id, t.event⟩ obj) else none
  | .broadcast listener _ event _ obj =>
    if listener = l then some (.eventBroadcast event obj) else none

/-- The messages sent so far by the listener of a server. -/
def messages (s : Store J) (l : Lis) : List (Message J) :=
  s.calls.filterMap (serverEventMessage l)

end AfbBinder.Stub
