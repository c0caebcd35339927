import AfbBinder.Lib.Runs

/-! A connection from the constructor that receives its fdev to the release of every
structure built over it: afb_ws, and over it either afb_proto_ws and afb_stub_ws, or
afb_wsj1 and afb_ws_json1. Only what decides the references on the fdev is kept. -/
namespace AfbBinder.Connections

/-- refcount counts two for each reference, and one when the descriptor is to be closed.
The calls are counted, and apart the calls of fdev_unref that come after the release. -/
structure Fdev where
  refcount : Nat
  freed : Bool
  addrefs : Nat
  unrefs : Nat
  late : Nat
  deriving DecidableEq, Repr

/-- An fdev as it is given to a constructor, others being the references kept elsewhere. -/
def given (others : Nat) (autoclose : Bool) : Fdev :=
  ⟨2 * (others + 1) + autoclose.toNat, false, 0, 0, 0⟩

def fdevAddref (f : Fdev) : Fdev :=
  { f with refcount := f.refcount + 2, addrefs := f.addrefs + 1 }

def fdevUnref (f : Fdev) : Fdev :=
  if f.freed then { f with unrefs := f.unrefs + 1, late := f.late + 1 }
  else { f with
    refcount := f.refcount - 2
    freed := decide (f.refcount - 2 ≤ 1)
    unrefs := f.unrefs + 1 }

/-- The constructor that received the fdev. -/
inductive Layer where
  | ws
  | proto
  | stubClient
  | stubServer
  | wsj1
  | json1
  deriving DecidableEq, Repr

/-- Whether each allocation on the way succeeds; session tells that the context of an
afb_ws_json1 has a session. -/
structure Allocs where
  ws : Bool
  websock : Bool
  proto : Bool
  stub : Bool
  wsj1 : Bool
  tokener : Bool
  json1 : Bool
  session : Bool
  listener : Bool
  deriving DecidableEq, Repr

/-- The structures of a connection: ws tells that afb_ws is allocated and connected that
its websock is not NULL; a count is 0 when the structure is freed or was never made.
kept is the number of references that others took on the fdev and did not drop. -/
structure Conn where
  layer : Layer
  fdev : Fdev
  kept : Nat
  ws : Bool
  connected : Bool
  protoRefs : Nat
  protoFdev : Bool
  stubRefs : Nat
  stubProto : Bool
  wsj1Refs : Nat
  json1Refs : Nat
  deriving DecidableEq, Repr

def Conn.start (layer : Layer) (fdev : Fdev) : Conn :=
  ⟨layer, fdev, 0, false, false, 0, false, 0, false, 0, 0⟩

def Conn.unref (c : Conn) : Conn := { c with fdev := fdevUnref c.fdev }

def awsDisconnect (onHangup : Conn → Conn) (c : Conn) (callOnHangup : Bool) : Conn :=
  if c.connected then
    let c := { c with connected := false }.unref
    if callOnHangup then onHangup c else c
  else c

def afbWsDestroy (c : Conn) : Conn := { awsDisconnect id c false with ws := false }

section
variable (hangup : Conn → Conn)

/-- hangup is afb_proto_ws_hangup. -/
def afbProtoWsUnref (c : Conn) : Conn :=
  match c.protoRefs with
  | 0 => c
  | 1 => afbWsDestroy (hangup { c with protoRefs := 0 })
  | n + 2 => { c with protoRefs := n + 1 }

/-- upper is what the callback of hangup recorded in the proto does. -/
def protoOnHangup (upper : Conn → Conn) (c : Conn) : Conn :=
  if c.protoFdev then upper { c.unref with protoFdev := false } else c

def disconnect (c : Conn) : Conn :=
  if c.stubProto then afbProtoWsUnref hangup { c with stubProto := false } else c

def afbStubWsUnref (c : Conn) : Conn :=
  match c.stubRefs with
  | 0 => c
  | 1 => disconnect hangup { c with stubRefs := 0 }
  | n + 2 => { c with stubRefs := n + 1 }

/-- release tells whether the callback of the user drops a reference. -/
def stubOnHangup (release : Bool) (c : Conn) : Conn :=
  if c.stubProto then
    let c := disconnect hangup { c with stubRefs := c.stubRefs + 1 }
    afbStubWsUnref hangup (if release then afbStubWsUnref hangup c else c)
  else c

def afbWsj1Unref (c : Conn) : Conn :=
  match c.wsj1Refs with
  | 0 => c
  | 1 => afbWsDestroy { c with wsj1Refs := 0 }
  | n + 2 => { c with wsj1Refs := n + 1 }

def afbWsJson1Unref (c : Conn) : Conn :=
  match c.json1Refs with
  | 0 => c
  | 1 => afbWsj1Unref { c with json1Refs := 0 }
  | n + 2 => { c with json1Refs := n + 1 }

/-- The on_hangup of the interface that the layer gives to afb_ws. -/
def onHangup (release : Bool) (c : Conn) : Conn :=
  match c.layer with
  | .ws => if release then afbWsDestroy c else c
  | .proto => protoOnHangup (fun c => if release then afbProtoWsUnref hangup c else c) c
  | .stubClient => protoOnHangup (stubOnHangup hangup release) c
  | .stubServer => protoOnHangup (stubOnHangup hangup release) c
  | .wsj1 => if release then afbWsj1Unref c else c
  | .json1 => afbWsJson1Unref c

end

/-- afb_ws_hangup comes back to itself through the releases of on_hangup, and then finds
the websock gone. -/
def afbWsHangup (release : Bool) : Nat → Conn → Conn
  | 0, c => c
  | fuel + 1, c => awsDisconnect (onHangup (afbWsHangup release fuel) release) c true

/-- The hangup that a release makes by itself: no callback of the user drops a reference. -/
def afbProtoWsHangup : Conn → Conn := afbWsHangup false 2

/-- The constructors tell whether they succeed. -/
def afbWsCreate (a : Allocs) (c : Conn) : Bool × Conn :=
  if a.ws ∧ a.websock then (true, { c with ws := true, connected := true }) else (false, c.unref)

def afbProtoWsCreate (a : Allocs) (c : Conn) : Bool × Conn :=
  if a.proto then
    match afbWsCreate a c with
    | (true, c) => (true, { c with protoFdev := true, protoRefs := 1 })
    | (false, c) => (false, c)
  else (false, c)

def afbStubWsCreate (a : Allocs) (c : Conn) : Bool × Conn :=
  if a.stub then
    match afbProtoWsCreate a c with
    | (true, c) => (true, { c with stubProto := true, stubRefs := 1 })
    | (false, c) => (false, c.unref)
  else (false, c.unref)

def afbStubWsCreateServer (a : Allocs) (c : Conn) : Bool × Conn :=
  match afbStubWsCreate a c with
  | (true, c) => if a.listener then (true, c) else (false, afbStubWsUnref afbProtoWsHangup c)
  | (false, c) => (false, c)

def afbWsj1Create (a : Allocs) (c : Conn) : Bool × Conn :=
  if a.wsj1 ∧ a.tokener then
    match afbWsCreate a c with
    | (true, c) => (true, { c with wsj1Refs := 1 })
    | (false, c) => (false, c.unref)
  else (false, c.unref)

def afbWsJson1Create (a : Allocs) (c : Conn) : Bool × Conn :=
  if a.json1 ∧ a.session then
    match afbWsj1Create a c with
    | (true, c) =>
      if a.listener then (true, { c with json1Refs := 1 }) else (false, (afbWsj1Unref c).unref)
    | (false, c) => (false, c.unref)
  else (false, c.unref)

def construct (layer : Layer) (a : Allocs) (fdev : Fdev) : Bool × Conn :=
  let c := Conn.start layer fdev
  match layer with
  | .ws => afbWsCreate a c
  | .proto => afbProtoWsCreate a c
  | .stubClient => afbStubWsCreate a c
  | .stubServer => afbStubWsCreateServer a c
  | .wsj1 => afbWsj1Create a c
  | .json1 => afbWsJson1Create a c

/-- What happens to a connection: the peer hangs up, or a reference is taken or dropped on
one of the structures, or by others on the fdev. -/
inductive Op where
  | hangup (release : Bool)
  | wsDestroy
  | protoAddref
  | protoUnref
  | stubAddref
  | stubUnref
  | wsj1Addref
  | wsj1Unref
  | json1Addref
  | json1Unref
  | fdevAddref
  | fdevUnref
  deriving DecidableEq, Repr

/-- A structure is used while it is allocated; afb_ws is only destroyed by its user where
no other structure owns it. -/
def step (c : Conn) : Op → Option Conn
  | .hangup release => if c.ws then some (afbWsHangup release 2 c) else none
  | .wsDestroy => if c.layer = .ws ∧ c.ws then some (afbWsDestroy c) else none
  | .protoAddref => if 0 < c.protoRefs then some { c with protoRefs := c.protoRefs + 1 } else none
  | .protoUnref => if 0 < c.protoRefs then some (afbProtoWsUnref afbProtoWsHangup c) else none
  | .stubAddref => if 0 < c.stubRefs then some { c with stubRefs := c.stubRefs + 1 } else none
  | .stubUnref => if 0 < c.stubRefs then some (afbStubWsUnref afbProtoWsHangup c) else none
  | .wsj1Addref => if 0 < c.wsj1Refs then some { c with wsj1Refs := c.wsj1Refs + 1 } else none
  | .wsj1Unref => if 0 < c.wsj1Refs then some (afbWsj1Unref c) else none
  | .json1Addref => if 0 < c.json1Refs then some { c with json1Refs := c.json1Refs + 1 } else none
  | .json1Unref => if 0 < c.json1Refs then some (afbWsJson1Unref c) else none
  | .fdevAddref =>
      if c.fdev.freed then none else some { c with fdev := fdevAddref c.fdev, kept := c.kept + 1 }
  | .fdevUnref => if 0 < c.kept then some { c.unref with kept := c.kept - 1 } else none

/-- The run is over: every structure is freed and the others dropped what they took. -/
structure Over (c : Conn) : Prop where
  ws : c.ws = false
  proto : c.protoRefs = 0
  stub : c.stubRefs = 0
  wsj1 : c.wsj1Refs = 0
  json1 : c.json1Refs = 0
  kept : c.kept = 0

end AfbBinder.Connections
