import Mathlib.Logic.Function.Basic
import AfbBinder.WrapJson.Values
import AfbBinder.HookFlags.Names

/-! The traces of a client: the hooks that its requests add, and those that they drop. In the build
of the repository the legacy traces are there. -/
namespace AfbBinder.Trace
open Lib.Cstrings WrapJson HookFlags
open Lib.Json (ascii)

abbrev SessionId := Nat

def slash : UInt8 := 47

/-- The types of hooks, in their order. -/
inductive TraceType where
  | xreq
  | api
  | evt
  | session
  | global
  | ditf
  | svc
  deriving DecidableEq, Repr

def traceTypes : List TraceType := [.xreq, .api, .evt, .session, .global, .ditf, .svc]

/-- The table that get_flag of the type reads. -/
def TraceType.table : TraceType → Table
  | .xreq => .xreq
  | .api => .api
  | .evt => .evt
  | .session => .session
  | .global => .global
  | .ditf => .legacyDitf
  | .svc => .legacySvc

/-- What the handler of a hook was created with. -/
inductive Handler where
  | xreq (apiname verbname : Option Bytes) (session : Option SessionId) (flags : BitVec 32)
  | api (apiname : Option Bytes) (flags : BitVec 32)
  | evt (pattern : Option Bytes) (flags : BitVec 32)
  | session (uuid : Option Bytes) (flags : BitVec 32)
  | global (flags : BitVec 32)
  deriving DecidableEq, Repr

/-- The event name, the tag and the uuid of the request that created a hook. -/
structure Origin where
  event : Bytes
  tag : Bytes
  uuid : Option Bytes
  deriving DecidableEq, Repr

/-- A hook: the tag and the session are none for NULL; nothing in the code reads the origin. -/
structure Hook where
  handler : Handler
  event : Nat
  tag : Option Nat
  session : Option SessionId
  origin : Origin
  deriving DecidableEq, Repr

/-- The name of the api of the events: the callers give monitor or supervisor. -/
structure ApiName where
  text : Bytes
  plain : slash ∉ text

/-- The records of events and of tags go by numbers, given once; the cookies are the sessions that
call session_closed when they close. -/
structure AfbTrace where
  apiname : ApiName
  bound : Option SessionId
  events : List (Nat × Bytes)
  tags : List (Nat × Bytes)
  hooks : TraceType → List Hook
  cookies : List SessionId
  next : Nat

/-- What the memory and the sessions answer to one call of addhook. -/
structure Grants where
  hook : Bool
  tag : Bool
  event : Bool
  session : Option SessionId
  cookie : Bool
  handler : Bool

inductive Error where
  | forbiddenType (type : TraceType)
  | forbiddenSession
  | hookAllocation
  | sessionAllocation
  | hookCreation
  | unexpectedValue (type : TraceType)
  | unknownName (type : TraceType) (name : Bytes)
  | unexpectedTag
  | tagNotFound (name : Bytes)
  | unexpectedEvent
  | eventNotFound (name : Bytes)
  | unexpectedSession
  | sessionNotFound (uuid : Bytes)
  deriving DecidableEq, Repr

def DEFAULT_EVENT_NAME : Bytes := ascii "trace"
def DEFAULT_TAG_NAME : Bytes := ascii "trace"

/-- The name of an event, after the first slash. -/
def evtidName (fullname : Bytes) : Bytes :=
  match fullname.dropWhile (· ≠ slash) with
  | [] => fullname
  | _ :: name => name

def afbTraceCreate (apiname : ApiName) (bound : Option SessionId) : AfbTrace :=
  ⟨apiname, bound, [], [], fun _ => [], [], 0⟩

/-- The hook stays when one of the things given is not its own. -/
def stays (tag event : Option Nat) (session : Option SessionId) (hook : Hook) : Bool :=
  (tag.any fun t => hook.tag ≠ some t) || (event.any fun e => hook.event ≠ e) ||
    session.any fun s => hook.session ≠ some s

def traceUnhook (t : AfbTrace) (tag event : Option Nat) (session : Option SessionId) : AfbTrace :=
  { t with hooks := fun type => (t.hooks type).filter (stays tag event session) }

def AfbTrace.usesTag (t : AfbTrace) (tag : Nat) : Bool :=
  traceTypes.any fun type => (t.hooks type).any fun hook => hook.tag = some tag

def AfbTrace.usesEvent (t : AfbTrace) (event : Nat) : Bool :=
  traceTypes.any fun type => (t.hooks type).any fun hook => hook.event = event

def traceCleanup (t : AfbTrace) : AfbTrace :=
  { t with
    tags := t.tags.filter fun tag => t.usesTag tag.1
    events := t.events.filter fun event => t.usesEvent event.1 }

def searchTag (t : AfbTrace) (name : Bytes) : Option Nat :=
  (t.tags.find? fun tag => tag.2 = name).map Prod.fst

def searchEvent (t : AfbTrace) (name : Bytes) : Option Nat :=
  (t.events.find? fun event => evtidName event.2 = name).map Prod.fst

/-- Trace_get_tag with alloc; mem tells whether malloc succeeds. -/
def traceGetTag (t : AfbTrace) (name : Bytes) (mem : Bool) : Option Nat × AfbTrace :=
  match searchTag t name with
  | some tag => (some tag, t)
  | none =>
    if mem then (some t.next, { t with tags := (t.next, name) :: t.tags, next := t.next + 1 })
    else (none, t)

def traceGetEvent (t : AfbTrace) (name : Bytes) (mem : Bool) : Option Nat × AfbTrace :=
  match searchEvent t name with
  | some event => (some event, t)
  | none =>
    if mem then
      (some t.next,
        { t with
          events := (t.next, t.apiname.text ++ slash :: name) :: t.events
          next := t.next + 1 })
    else (none, t)

/-- Trace_get_session_by_uuid with alloc, on the session that afb_session_get gave. -/
def openSession (t : AfbTrace) (session : SessionId) (mem : Bool) : AfbTrace :=
  if session ∈ t.cookies ∨ mem = false then t else { t with cookies := session :: t.cookies }

structure Desc where
  name : Option Bytes
  tag : Option Bytes
  uuid : Option Bytes
  apiname : Option Bytes
  verbname : Option Bytes
  pattern : Option Bytes
  flags : TraceType → BitVec 32

/-- The session of a hook of xreq: none when it could not be got. -/
def hookSession (t : AfbTrace) (desc : Desc) (g : Grants) :
    Option (Option SessionId × AfbTrace) :=
  match desc.uuid with
  | none => some (t.bound, t)
  | some _ => g.session.map fun session => (some session, openSession t session g.cookie)

/-- The handler that the switch creates. -/
def newHandler (desc : Desc) (session : Option SessionId) : TraceType → Option Handler
  | .xreq => some (.xreq desc.apiname desc.verbname session (desc.flags .xreq))
  | .api => some (.api desc.apiname (desc.flags .api))
  | .evt => some (.evt desc.pattern (desc.flags .evt))
  | .session => some (.session desc.uuid (desc.flags .session))
  | .global => some (.global (desc.flags .global))
  | .ditf => none
  | .svc => none

def traceAttachHook (t : AfbTrace) (hook : Hook) (type : TraceType) : AfbTrace :=
  { t with hooks := Function.update t.hooks type (hook :: t.hooks type) }

/-- None for the dereference of an event that could not be created. -/
def addhook (g : Grants) (desc : Desc) (type : TraceType) (t : AfbTrace) (errors : List Error) :
    Option (AfbTrace × List Error) :=
  if t.bound.isSome ∧ type ≠ .xreq then some (t, errors ++ [.forbiddenType type])
  else if t.bound.isSome ∧ desc.uuid.isSome then some (t, errors ++ [.forbiddenSession])
  else if g.hook = false then some (t, errors ++ [.hookAllocation])
  else
    let origin := ⟨desc.name.getD DEFAULT_EVENT_NAME, desc.tag.getD DEFAULT_TAG_NAME, desc.uuid⟩
    let (tag, t) := traceGetTag t origin.tag g.tag
    let (event, t) := traceGetEvent t origin.event g.event
    match (if type = .xreq then hookSession t desc g else some (none, t)) with
    | none => some (t, errors ++ [.sessionAllocation])
    | some (session, t) =>
      match (if g.handler then newHandler desc session type else none) with
      | none => some (t, errors ++ [.hookCreation])
      | some handler =>
        event.map fun event => (traceAttachHook t ⟨handler, event, tag, none, origin⟩ type, errors)

section
variable {D : Type}

/-- What wrap_json_optarray_for_all gives to its callback. -/
def optarray : Json D → List (Json D)
  | .array items => items
  | object => [object]

def unpackString : Json D → Option Bytes
  | .string s => some s
  | _ => none

/-- An object that is there; the null of JSON is NULL. -/
def field (name : Bytes) (members : List (Bytes × Json D)) : Option (Json D) :=
  match objectGet name members with
  | some .null => none
  | found => found

def addFlags (type : TraceType) (object : Json D) (desc : Desc) (errors : List Error) :
    Desc × List Error :=
  match unpackString object with
  | none => (desc, errors ++ [.unexpectedValue type])
  | some name =>
    let queried := if name = ascii "*" then ascii "all" else name
    let value := fromText (some queried) type.table.flags
    if value ≠ 0 then
      ({ desc with flags := Function.update desc.flags type (desc.flags type ||| value) }, errors)
    else (desc, errors ++ [.unknownName type name])

def addAllFlags (type : TraceType) (objects : List (Json D)) (desc : Desc) (errors : List Error) :
    Desc × List Error :=
  objects.foldl (fun d object => addFlags type object d.1 d.2) (desc, errors)

/-- The strings of an object, each stored as it is found: false when one is not a string. -/
def unpackStrings (members : List (Bytes × Json D)) :
    List (Bytes × (Bytes → Desc → Desc)) → Desc → Desc × Bool
  | [], desc => (desc, true)
  | (key, store) :: keys, desc =>
    match objectGet key members with
    | none => unpackStrings members keys desc
    | some value =>
      match unpackString value with
      | none => (desc, false)
      | some s => unpackStrings members keys (store s desc)

def stringKeys : List (Bytes × (Bytes → Desc → Desc)) :=
  [(ascii "name", fun s desc => { desc with name := some s }),
    (ascii "tag", fun s desc => { desc with tag := some s }),
    (ascii "apiname", fun s desc => { desc with apiname := some s }),
    (ascii "verbname", fun s desc => { desc with verbname := some s }),
    (ascii "uuid", fun s desc => { desc with uuid := some s }),
    (ascii "pattern", fun s desc => { desc with pattern := some s })]

/-- The format has room for seven objects: for, the last of the eight, is never read. -/
def flagKeys : List (Bytes × TraceType) :=
  [(ascii "request", .xreq), (ascii "api", .api), (ascii "daemon", .ditf),
    (ascii "service", .svc), (ascii "event", .evt), (ascii "session", .session),
    (ascii "global", .global)]

def replaceStar (s : Option Bytes) : Option Bytes := if s = some (ascii "*") then none else s

/-- What add reads of a request: false when it is not an object of the expected form. -/
def unpackDesc (object : Json D) (desc : Desc) : Desc × Bool :=
  match object with
  | .object members => unpackStrings members stringKeys desc
  | _ => (desc, false)

def readDesc (object : Json D) (desc : Desc) (errors : List Error) : Desc × List Error :=
  match object, unpackDesc object desc with
  | .object members, (desc, true) =>
    let desc := { desc with
      apiname := replaceStar desc.apiname
      verbname := replaceStar desc.verbname
      uuid := replaceStar desc.uuid }
    flagKeys.foldl (fun d key =>
      match field key.1 members with
      | none => d
      | some objects => addAllFlags key.2 (optarray objects) d.1 d.2) (desc, errors)
  | object, (desc, _) => addAllFlags .xreq (optarray object) desc errors

def addhooks (grants : TraceType → Grants) (desc : Desc) (t : AfbTrace) (errors : List Error) :
    Option (AfbTrace × List Error) :=
  let api := desc.flags .api ||| (desc.flags .ditf ||| desc.flags .svc)
  let desc := { desc with
    flags := Function.update (Function.update (Function.update desc.flags .api api) .ditf 0) .svc 0 }
  traceTypes.foldlM (fun te type =>
    if desc.flags type ≠ 0 then addhook (grants type) desc type te.1 te.2 else some te) (t, errors)

def noDesc : Desc := ⟨none, none, none, none, none, none, fun _ => 0⟩

def add (grants : TraceType → Grants) (object : Json D) (t : AfbTrace) (errors : List Error) :
    Option (AfbTrace × List Error) :=
  let (desc, errors) := readDesc object noDesc errors
  addhooks grants desc t errors

/-- The grants are those of the items of the request, by their index. -/
def afbTraceAdd (grants : Nat → TraceType → Grants) (args : Json D) (t : AfbTrace) :
    Option (AfbTrace × List Error) :=
  (optarray args).zipIdx.foldlM (fun te item => add (grants item.2) item.1 te.1 te.2) (t, [])

def dropTag (te : AfbTrace × List Error) (object : Json D) : AfbTrace × List Error :=
  match unpackString object with
  | none => (te.1, te.2 ++ [.unexpectedTag])
  | some name =>
    match searchTag te.1 name with
    | none => (te.1, te.2 ++ [.tagNotFound name])
    | some tag => (traceUnhook te.1 (some tag) none none, te.2)

def dropEvent (te : AfbTrace × List Error) (object : Json D) : AfbTrace × List Error :=
  match unpackString object with
  | none => (te.1, te.2 ++ [.unexpectedEvent])
  | some name =>
    match searchEvent te.1 name with
    | none => (te.1, te.2 ++ [.eventNotFound name])
    | some event => (traceUnhook te.1 none (some event) none, te.2)

/-- The sessions are those that afb_session_search finds. -/
def dropSession (sessions : Bytes → Option SessionId) (te : AfbTrace × List Error)
    (object : Json D) : AfbTrace × List Error :=
  match unpackString object with
  | none => (te.1, te.2 ++ [.unexpectedSession])
  | some uuid =>
    match sessions uuid with
    | none => (te.1, te.2 ++ [.sessionNotFound uuid])
    | some session => (traceUnhook te.1 none none (some session), te.2)

def optarrayOf (object : Option (Json D)) : List (Json D) := object.elim [] optarray

/-- The result is false when the request fails with bad drop arguments. -/
def afbTraceDrop (sessions : Bytes → Option SessionId) (args : Json D) (t : AfbTrace) :
    AfbTrace × List Error × Bool :=
  match args with
  | .boolean rc => (if rc then traceCleanup (traceUnhook t none none none) else t, [], true)
  | .object members =>
    let events := field (ascii "event") members
    let tags := field (ascii "tag") members
    let uuids := field (ascii "uuid") members
    if events.isSome ∨ tags.isSome ∨ uuids.isSome then
      let te := (optarrayOf tags).foldl dropTag (t, [])
      let te := (optarrayOf events).foldl dropEvent te
      let te := (optarrayOf uuids).foldl (dropSession sessions) te
      (traceCleanup te.1, te.2, true)
    else (t, [], false)
  | _ => (t, [], false)

/-- The callback of the cookie of a session that closes. -/
def sessionClosed (t : AfbTrace) (session : SessionId) : AfbTrace :=
  if session ∈ t.cookies then
    { traceUnhook t none none (some session) with cookies := t.cookies.erase session }
  else t

inductive Op (D : Type) where
  | add (grants : Nat → TraceType → Grants) (args : Json D)
  | drop (sessions : Bytes → Option SessionId) (args : Json D)
  | close (session : SessionId)

def step (t : AfbTrace) : Op D → Option AfbTrace
  | .add grants args => (afbTraceAdd grants args t).map Prod.fst
  | .drop sessions args => some (afbTraceDrop sessions args t).1
  | .close session => some (sessionClosed t session)

end

end AfbBinder.Trace
