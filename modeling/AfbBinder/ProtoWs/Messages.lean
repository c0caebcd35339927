import AfbBinder.ProtoWs.Buffers

/-! The messages of the binder protocol: how each is built by its sender, and what the
client and the server do with the bytes they receive. A message is processed by one
job, from the byte that tells its kind; the memory of the buffer is freed after. -/
namespace AfbBinder.ProtoWs
open Lib.Cstrings Lib.Reader

def CHAR_FOR_CALL : UInt8 := 'C'.toUInt8
def CHAR_FOR_REPLY : UInt8 := 'Y'.toUInt8
def CHAR_FOR_EVT_BROADCAST : UInt8 := '*'.toUInt8
def CHAR_FOR_EVT_ADD : UInt8 := '+'.toUInt8
def CHAR_FOR_EVT_DEL : UInt8 := '-'.toUInt8
def CHAR_FOR_EVT_PUSH : UInt8 := '!'.toUInt8
def CHAR_FOR_EVT_SUBSCRIBE : UInt8 := 'S'.toUInt8
def CHAR_FOR_EVT_UNSUBSCRIBE : UInt8 := 'U'.toUInt8
def CHAR_FOR_DESCRIBE : UInt8 := 'D'.toUInt8
def CHAR_FOR_DESCRIPTION : UInt8 := 'd'.toUInt8

variable {J : Type}

/-! Senders: the pieces given to the websocket, none when the message is not built. -/

def afbProtoWsCallReply (jc : Jsonc J) (callid : UInt32) (obj : J) (error info : Option CString) :
    Option Writebuf := do
  let wb ← writebufChar [] CHAR_FOR_REPLY
  let wb ← writebufUint32 wb callid
  let wb ← writebufNullstring wb error
  let wb ← writebufNullstring wb info
  writebufObject jc wb obj

/-- Common text of subscribe and unsubscribe. -/
def callEvent (order : UInt8) (callid : UInt32) (eventName : CString) (eventId : Int32) :
    Option Writebuf := do
  let wb ← writebufChar [] order
  let wb ← writebufUint32 wb callid
  let wb ← writebufUint32 wb eventId.toUInt32
  writebufString wb eventName

def afbProtoWsCallSubscribe := callEvent CHAR_FOR_EVT_SUBSCRIBE

def afbProtoWsCallUnsubscribe := callEvent CHAR_FOR_EVT_UNSUBSCRIBE

def afbProtoWsClientCall (jc : Jsonc J) (callid : UInt32) (verb : CString) (args : J)
    (sessionid : CString) (userCreds : Option CString) : Option Writebuf := do
  let wb ← writebufChar [] CHAR_FOR_CALL
  let wb ← writebufUint32 wb callid
  let wb ← writebufString wb verb
  let wb ← writebufString wb sessionid
  let wb ← writebufObject jc wb args
  writebufNullstring wb userCreds

def afbProtoWsClientDescribe (descid : UInt32) : Option Writebuf := do
  let wb ← writebufChar [] CHAR_FOR_DESCRIBE
  writebufUint32 wb descid

def serverSendDescription (jc : Jsonc J) (descid : UInt32) (descobj : J) : Option Writebuf := do
  let wb ← writebufChar [] CHAR_FOR_DESCRIPTION
  let wb ← writebufUint32 wb descid
  writebufObject jc wb descobj

def serverEventSend (jc : Jsonc J) (order : UInt8) (eventName : CString) (eventId : Int32)
    (data : J) : Option Writebuf := do
  let wb ← writebufChar [] order
  let wb ← if order = CHAR_FOR_EVT_BROADCAST then some wb
    else writebufUint32 wb eventId.toUInt32
  let wb ← writebufString wb eventName
  if order = CHAR_FOR_EVT_ADD ∨ order = CHAR_FOR_EVT_DEL then some wb
  else writebufObject jc wb data

def afbProtoWsServerEventCreate (jc : Jsonc J) (eventName : CString) (eventId : Int32) :=
  serverEventSend jc CHAR_FOR_EVT_ADD eventName eventId jc.null

def afbProtoWsServerEventRemove (jc : Jsonc J) (eventName : CString) (eventId : Int32) :=
  serverEventSend jc CHAR_FOR_EVT_DEL eventName eventId jc.null

def afbProtoWsServerEventPush (jc : Jsonc J) (eventName : CString) (eventId : Int32) (data : J) :=
  serverEventSend jc CHAR_FOR_EVT_PUSH eventName eventId data

def afbProtoWsServerEventBroadcast (jc : Jsonc J) (eventName : CString) (data : J) :=
  serverEventSend jc CHAR_FOR_EVT_BROADCAST eventName 0 data

/-! Receivers. -/

/-- A string given to a callback: found in the buffer, or a constant of the program. -/
inductive Text where
  | buf (s : Str)
  | lit (s : Bytes)
  deriving DecidableEq, Repr

def Text.content (mem : Memory) : Text → Bytes
  | .buf s => s.content mem
  | .lit s => s

/-- The calls of the interfaces, with strings in S. A description is given to the
callback that was recorded with the request for it. -/
inductive Callback (J S : Type) where
  | onReply (request : Nat) (object : J) (error info : Option S)
  | onEventCreate (eventName : S) (eventId : Int32)
  | onEventRemove (eventName : S) (eventId : Int32)
  | onEventSubscribe (request : Nat) (eventName : S) (eventId : Int32)
  | onEventUnsubscribe (request : Nat) (eventName : S) (eventId : Int32)
  | onEventPush (eventName : S) (eventId : Int32) (object : J)
  | onEventBroadcast (eventName : S) (object : J)
  | onDescription (closure : Nat) (object : J)
  | onCall (callid : UInt32) (verb : S) (object : J) (uuid : S) (userCreds : Option S)
  | onDescribe (descid : UInt32)
  deriving DecidableEq, Repr

/-- The same call with the strings read. -/
def Callback.map {S T : Type} (f : S → T) : Callback J S → Callback J T
  | .onReply request object error info => .onReply request object (error.map f) (info.map f)
  | .onEventCreate name id => .onEventCreate (f name) id
  | .onEventRemove name id => .onEventRemove (f name) id
  | .onEventSubscribe request name id => .onEventSubscribe request (f name) id
  | .onEventUnsubscribe request name id => .onEventUnsubscribe request (f name) id
  | .onEventPush name id object => .onEventPush (f name) id object
  | .onEventBroadcast name object => .onEventBroadcast (f name) object
  | .onDescription closure object => .onDescription closure object
  | .onCall callid verb object uuid creds => .onCall callid (f verb) object (f uuid) (creds.map f)
  | .onDescribe descid => .onDescribe descid

structure ClientCall where
  addr : Nat
  request : Nat
  callid : UInt32
  deriving DecidableEq, Repr

structure ClientDescribe where
  addr : Nat
  closure : Nat
  descid : UInt32
  deriving DecidableEq, Repr

/-- The callbacks that may be NULL, which are set. -/
structure Itf where
  onEventCreate : Bool
  onEventRemove : Bool
  onEventSubscribe : Bool
  onEventUnsubscribe : Bool
  onEventPush : Bool
  onEventBroadcast : Bool
  onDescribe : Bool
  deriving DecidableEq, Repr

/-- What the processing of messages reads of the proto. -/
structure Protows where
  itf : Itf
  calls : List ClientCall
  describes : List ClientDescribe
  deriving DecidableEq, Repr

/-- What a job did: the callbacks, the proto and the buffer after, the messages sent. -/
structure Outcome (J : Type) where
  callbacks : List (Callback J Text)
  protows : Protows
  rb : Window
  sent : List Writebuf

section
variable (mem : Memory) (jc : Jsonc J) (p : Protows)

def clientCallSearch (callid : UInt32) : Option ClientCall :=
  p.calls.find? (·.callid = callid)

def clientCallDestroy (call : ClientCall) : Protows :=
  { p with calls := p.calls.eraseP (·.addr = call.addr) }

def clientMsgEventRead : Rd (UInt32 × Str) := do
  let eventId ← readbufUint32 mem
  let name ← readbufString mem
  pure (eventId, name)

def clientMsgCallGet : Rd ClientCall := do
  let callid ← readbufUint32 mem
  match clientCallSearch p callid with
  | some call => pure call
  | none => .fail

/-- The callback of a message, called when it is set and all the fields were read. -/
def onRead {α : Type} (set : Bool) (read : Rd α) (callback : α → Callback J Text) (rb : Window) :
    Outcome J :=
  if set then
    let r := read rb
    ⟨(r.1.map callback).toList, p, r.2, []⟩
  else ⟨[], p, rb, []⟩

def clientOnEventCreate : Window → Outcome J :=
  onRead p p.itf.onEventCreate (clientMsgEventRead mem)
    fun (id, name) => .onEventCreate (.buf name) id.toInt32

def clientOnEventRemove : Window → Outcome J :=
  onRead p p.itf.onEventRemove (clientMsgEventRead mem)
    fun (id, name) => .onEventRemove (.buf name) id.toInt32

/-- The call, then the event. -/
def callEventRead : Rd (ClientCall × UInt32 × Str) := do
  let call ← clientMsgCallGet mem p
  let event ← clientMsgEventRead mem
  pure (call, event)

def clientOnEventSubscribe : Window → Outcome J :=
  onRead p p.itf.onEventSubscribe (callEventRead mem p)
    fun (call, id, name) => .onEventSubscribe call.request (.buf name) id.toInt32

def clientOnEventUnsubscribe : Window → Outcome J :=
  onRead p p.itf.onEventUnsubscribe (callEventRead mem p)
    fun (call, id, name) => .onEventUnsubscribe call.request (.buf name) id.toInt32

def broadcastRead : Rd (Str × J) := do
  let name ← readbufString mem
  let object ← readbufObject mem jc
  pure (name, object)

def clientOnEventBroadcast : Window → Outcome J :=
  onRead p p.itf.onEventBroadcast (broadcastRead mem jc)
    fun (name, object) => .onEventBroadcast (.buf name) object

def pushRead : Rd ((UInt32 × Str) × J) := do
  let event ← clientMsgEventRead mem
  let object ← readbufObject mem jc
  pure (event, object)

def clientOnEventPush : Window → Outcome J :=
  onRead p p.itf.onEventPush (pushRead mem jc)
    fun ((id, name), object) => .onEventPush (.buf name) id.toInt32 object

def replyRead : Rd (Option Str × Option Str × J) := do
  let error ← readbufNullstring mem
  let info ← readbufNullstring mem
  let object ← readbufObject mem jc
  pure (error, info, object)

/-- The texts of the reply to a message that can not be read. -/
def protoError : Bytes := "proto-error".toUTF8.toList
def cantProcess : Bytes := "can't process success".toUTF8.toList

def clientOnReply (rb : Window) : Outcome J :=
  match clientMsgCallGet mem p rb with
  | (none, rb) => ⟨[], p, rb, []⟩
  | (some call, rb) =>
    let r := replyRead mem jc rb
    let callback := match r.1 with
      | some (error, info, object) =>
        .onReply call.request object (error.map .buf) (info.map .buf)
      | none => .onReply call.request jc.null (some (.lit protoError)) (some (.lit cantProcess))
    ⟨[callback], clientCallDestroy p call, r.2, []⟩

def clientOnDescription (rb : Window) : Outcome J :=
  match readbufUint32 mem rb with
  | (none, rb) => ⟨[], p, rb, []⟩
  | (some descid, rb) =>
    match p.describes.find? (·.descid = descid) with
    | none => ⟨[], p, rb, []⟩
    | some desc =>
      let r := readbufObject mem jc rb
      ⟨[.onDescription desc.closure (r.1.getD jc.null)],
        { p with describes := p.describes.eraseP (·.descid = descid) }, r.2, []⟩

/-- The byte at the head, which the switch of a job reads. -/
def readKind (rb : Window) : UInt8 × Window :=
  (mem rb.head, { rb with head := rb.head + 1, reads := rb.reads ++ [rb.head] })

/-- The switch of client_on_binary_job. -/
def clientOnKind (kind : UInt8) (rb : Window) : Outcome J :=
  if kind = CHAR_FOR_REPLY then clientOnReply mem jc p rb
  else if kind = CHAR_FOR_EVT_BROADCAST then clientOnEventBroadcast mem jc p rb
  else if kind = CHAR_FOR_EVT_ADD then clientOnEventCreate mem p rb
  else if kind = CHAR_FOR_EVT_DEL then clientOnEventRemove mem p rb
  else if kind = CHAR_FOR_EVT_PUSH then clientOnEventPush mem jc p rb
  else if kind = CHAR_FOR_EVT_SUBSCRIBE then clientOnEventSubscribe mem p rb
  else if kind = CHAR_FOR_EVT_UNSUBSCRIBE then clientOnEventUnsubscribe mem p rb
  else if kind = CHAR_FOR_DESCRIPTION then clientOnDescription mem jc p rb
  else ⟨[], p, rb, []⟩

/-- A job started by a signal only frees the buffer. -/
def clientOnBinaryJob (sig : Nat) (rb : Window) : Outcome J :=
  if sig = 0 then
    let (kind, rb) := readKind mem rb
    clientOnKind mem jc p kind rb
  else ⟨[], p, rb, []⟩

def callRead : Rd (UInt32 × Str × Str × J × Option Str) := do
  let callid ← readbufUint32 mem
  let verb ← readbufString mem
  let uuid ← readbufString mem
  let object ← readbufObject mem jc
  let userCreds ← readbufNullstring mem
  pure (callid, verb, uuid, object, userCreds)

/-- alloc tells whether the call can be allocated. -/
def serverOnCall (alloc : Bool) (rb : Window) : Outcome J :=
  let r := callRead mem jc rb
  match r.1 with
  | some (callid, verb, uuid, object, userCreds) =>
    if alloc then
      ⟨[.onCall callid (.buf verb) object (.buf uuid) (userCreds.map .buf)], p, r.2, []⟩
    else ⟨[], p, r.2, []⟩
  | none => ⟨[], p, r.2, []⟩

/-- Without callback or memory the server answers with the description of NULL. -/
def serverOnDescribe (alloc : Bool) (rb : Window) : Outcome J :=
  match readbufUint32 mem rb with
  | (none, rb) => ⟨[], p, rb, []⟩
  | (some descid, rb) =>
    if p.itf.onDescribe ∧ alloc then ⟨[.onDescribe descid], p, rb, []⟩
    else ⟨[], p, rb, (serverSendDescription jc descid jc.null).toList⟩

/-- The switch of server_on_binary_job. -/
def serverOnKind (alloc : Bool) (kind : UInt8) (rb : Window) : Outcome J :=
  if kind = CHAR_FOR_CALL then serverOnCall mem jc p alloc rb
  else if kind = CHAR_FOR_DESCRIBE then serverOnDescribe mem jc p alloc rb
  else ⟨[], p, rb, []⟩

def serverOnBinaryJob (sig : Nat) (alloc : Bool) (rb : Window) : Outcome J :=
  if sig = 0 then
    let (kind, rb) := readKind mem rb
    serverOnKind mem jc p alloc kind rb
  else ⟨[], p, rb, []⟩

/-- The window of a message received at an address, as queue_message_processing sets it. -/
def received (base size : Nat) : Window := ⟨base, base, base + size, []⟩

end

end AfbBinder.ProtoWs
