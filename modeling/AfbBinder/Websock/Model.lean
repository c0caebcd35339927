import Mathlib.Algebra.Group.Nat.Defs
import AfbBinder.Lib.Cstrings

/-! The decoding of websocket frames: websock_dispatch with the callbacks of afb_ws, over a
socket whose bytes become available chunk after chunk. -/
namespace AfbBinder.Websock
open Lib.Cstrings

def OPCODE_CONTINUATION : UInt8 := 0x0
def OPCODE_TEXT : UInt8 := 0x1
def OPCODE_BINARY : UInt8 := 0x2
def OPCODE_CLOSE : UInt8 := 0x8
def OPCODE_PING : UInt8 := 0x9
def OPCODE_PONG : UInt8 := 0xA

def WEBSOCKET_CODE_PROTOCOL_ERROR : Nat := 1002
def WEBSOCKET_CODE_CANT_ACCEPT : Nat := 1003
def WEBSOCKET_CODE_NOT_SET : Nat := 1005
def WEBSOCKET_CODE_ABNORMAL : Nat := 1006
def WEBSOCKET_CODE_MESSAGE_TOO_LARGE : Nat := 1009

def frameGetFin (b : UInt8) : Bool := (b >>> 7) &&& 0x01 ≠ 0
def frameGetRsv1 (b : UInt8) : UInt8 := (b >>> 6) &&& 0x01
def frameGetRsv2 (b : UInt8) : UInt8 := (b >>> 5) &&& 0x01
def frameGetRsv3 (b : UInt8) : UInt8 := (b >>> 4) &&& 0x01
def frameGetOpcode (b : UInt8) : UInt8 := b &&& 0x0F
def frameGetMask (b : UInt8) : Bool := (b >>> 7) &&& 0x01 ≠ 0
def frameGetPayloadLen (b : UInt8) : Nat := (b &&& 0x7F).toNat

/-- A byte of the header. -/
def byteAt (header : Bytes) (i : Nat) : UInt8 := header.getD i 0

def rsvClear (header : Bytes) : Bool :=
  frameGetRsv1 (byteAt header 0) = 0 && frameGetRsv2 (byteAt header 0) = 0 &&
    frameGetRsv3 (byteAt header 0) = 0

def checkControlHeader (header : Bytes) : Bool :=
  rsvClear header && frameGetPayloadLen (byteAt header 1) ≤ 125 &&
    (frameGetOpcode (byteAt header 0) ≠ OPCODE_CLOSE || frameGetPayloadLen (byteAt header 1) ≠ 1)

/-- The check of the two first bytes, made for the control frames. -/
def startRefused (header : Bytes) : Bool :=
  (frameGetOpcode (byteAt header 0) = OPCODE_CLOSE || frameGetOpcode (byteAt header 0) = OPCODE_PING ||
    frameGetOpcode (byteAt header 0) = OPCODE_PONG) && !checkControlHeader header

/-- The size of the heading that the two first bytes tell. -/
def headingSize (header : Bytes) : Nat :=
  let payloadLen := frameGetPayloadLen (byteAt header 1)
  2 + (if frameGetOpcode (byteAt header 0) = OPCODE_CLOSE ∧ payloadLen ≠ 0 then 2 else 0) +
    (if payloadLen = 127 then 8 else if payloadLen = 126 then 2 else 0) +
    (if frameGetMask (byteAt header 1) then 4 else 0)

/-- The bytes from one on, the highest first. -/
def bigEndian (header : Bytes) (first count : Nat) : Nat :=
  (List.range count).foldl (fun n i => n * 256 + (byteAt header (first + i)).toNat) 0

/-- The payload that follows the heading: the code of a close is in the heading. -/
def headingLength (header : Bytes) : Nat :=
  let payloadLen := frameGetPayloadLen (byteAt header 1)
  let length := if payloadLen = 127 then bigEndian header 2 8
    else if payloadLen = 126 then bigEndian header 2 2
    else payloadLen
  if frameGetOpcode (byteAt header 0) = OPCODE_CLOSE ∧ length ≠ 0 then length - 2 else length

structure Mask where
  b0 : UInt8
  b1 : UInt8
  b2 : UInt8
  b3 : UInt8
  deriving DecidableEq, Repr

def Mask.zero : Mask := ⟨0, 0, 0, 0⟩

def Mask.rotate (m : Mask) : Mask := ⟨m.b1, m.b2, m.b3, m.b0⟩

def headingMask (header : Bytes) (szhead : Nat) : Mask :=
  if frameGetMask (byteAt header 1) then
    ⟨byteAt header (szhead - 4), byteAt header (szhead - 3), byteAt header (szhead - 2),
      byteAt header (szhead - 1)⟩
  else .zero

def closeCode (header : Bytes) (szhead length : Nat) : Nat :=
  if length = 0 then WEBSOCKET_CODE_NOT_SET else bigEndian header (szhead - 2) 2

/-- The last loop of unmask, byte by byte. -/
def unmaskBytes : Mask → Bytes → Bytes × Mask
  | m, [] => ([], m)
  | m, b :: bs =>
    let (r, m') := unmaskBytes m.rotate bs
    ((b ^^^ m.b0) :: r, m')

/-- The loop of unmask by words of four bytes, then the last one. -/
def unmaskWords (m : Mask) : Bytes → Bytes × Mask
  | b0 :: b1 :: b2 :: b3 :: bs =>
    let (r, m') := unmaskWords m bs
    ((b0 ^^^ m.b0) :: (b1 ^^^ m.b1) :: (b2 ^^^ m.b2) :: (b3 ^^^ m.b3) :: r, m')
  | bs => unmaskBytes m bs

/-- The loop of unmask up to an aligned address, then the others. -/
def unmask : Nat → Mask → Bytes → Bytes × Mask
  | _, m, [] => ([], m)
  | addr, m, b :: bs =>
    if addr % 4 ≠ 0 then
      let (r, m') := unmask (addr + 1) m.rotate bs
      ((b ^^^ m.b0) :: r, m')
    else unmaskWords m (b :: bs)

inductive WsState where
  | init
  | start
  | length
  | data
  deriving DecidableEq, Repr

inductive State where
  | waiting
  | readingText
  | readingBinary
  deriving DecidableEq, Repr

/-- What the interface of afb_ws is told, and the frames that are sent. -/
inductive Event where
  | onClose (code : Nat) (data : Option Bytes)
  | onText (data : Bytes)
  | onBinary (data : Bytes)
  | onError (code : Nat)
  | onHangup
  | sent (frame : Bytes)
  deriving DecidableEq, Repr

/-- The callbacks of the interface that are set, the longest frame accepted, the addresses
of the buffer of afb_ws and of the one of websock_drop. -/
structure Env where
  onClose : Bool
  onText : Bool
  onBinary : Bool
  onError : Bool
  onHangup : Bool
  maxlength : Nat
  heap : Nat
  stack : Nat
  deriving DecidableEq, Repr

/-- A websock with its afb_ws and its socket: the bytes available, the chunks that will
become so one after the other, and whether the peer closes after. header has the lenhead
bytes read. blocked tells that a call waits for bytes that will not come. -/
structure Conn where
  wsState : WsState
  szhead : Nat
  header : Bytes
  length : Nat
  mask : Mask
  connected : Bool
  state : State
  buffer : Bytes
  avail : Bytes
  later : List Bytes
  eof : Bool
  blocked : Bool
  events : List Event
  deriving DecidableEq, Repr

/-- A connection just created. -/
def Conn.start (avail : Bytes) (later : List Bytes) (eof : Bool) : Conn where
  wsState := .init
  szhead := 0
  header := []
  length := 0
  mask := .zero
  connected := true
  state := .waiting
  buffer := []
  avail := avail
  later := later
  eof := eof
  blocked := false
  events := []

def Conn.tell (s : Conn) (es : List Event) : Conn := { s with events := s.events ++ es }

inductive Rc where
  | data (b : Bytes)
  | again
  | closed
  deriving DecidableEq, Repr

/-- A read without available bytes fails, and the next chunk comes. -/
def awsReadv (size : Nat) (s : Conn) : Rc × Conn :=
  if s.avail = [] then
    match s.later with
    | c :: cs => (.again, { s with avail := c, later := cs })
    | [] => (if s.eof then .closed else .again, s)
  else (.data (s.avail.take size), { s with avail := s.avail.drop size })

/-- websock_send_internal_v: the header and the payload. -/
def websockSend (first : UInt8) (payload : Bytes) : Bytes :=
  let size := payload.length
  let byte (i : Nat) : UInt8 := UInt8.ofNat (size / 256 ^ i % 256)
  let header :=
    if size < 126 then [first, byte 0]
    else if size < 65536 then [first, 126, byte 1, byte 0]
    else [first, 127, byte 7, byte 6, byte 5, byte 4, byte 3, byte 2, byte 1, byte 0]
  header ++ payload

/-- A last frame of this opcode. -/
def finFrame (opcode : UInt8) (payload : Bytes) : Bytes := websockSend (0x80 ||| opcode) payload

def websockClose (code : Nat) (data : Bytes) : List Event :=
  if code = WEBSOCKET_CODE_NOT_SET ∧ data = [] then [.sent (finFrame OPCODE_CLOSE [])]
  else if 123 < data.length then []
  else [.sent (finFrame OPCODE_CLOSE
    ([UInt8.ofNat (code / 256 % 256), UInt8.ofNat (code % 256)] ++ data))]

def websockPong (data : Bytes) : List Event :=
  if 125 < data.length then [] else [.sent (finFrame OPCODE_PONG data)]

/-- aws_disconnect with the call of on_hangup. -/
def afbWsHangup (e : Env) (s : Conn) : Conn :=
  if s.connected then
    { s with connected := false, state := .waiting }.tell (if e.onHangup then [.onHangup] else [])
  else s

def awsOnError (e : Env) (code : Nat) (s : Conn) : Conn :=
  if e.onError then s.tell [.onError code] else afbWsHangup e s

def websockError (e : Env) (code : Nat) (s : Conn) : Conn :=
  awsOnError e code (s.tell (websockClose code []))

def readHeader (s : Conn) : Rc × Conn :=
  if s.header.length < s.szhead then
    match awsReadv (s.szhead - s.header.length) s with
    | (.data b, s) => (.data b, { s with header := s.header ++ b })
    | r => r
  else (.data [], s)

def websockRead (addr size : Nat) (s : Conn) : Rc × Conn :=
  if s.wsState = .data then
    match awsReadv (min size s.length) s with
    | (.data b, s) =>
      let r := if s.mask = .zero then (b, s.mask) else unmask addr s.mask b
      (.data r.1, { s with length := s.length - b.length, mask := r.2 })
    | r => r
  else (.data [], s)

/-- The loop of websock_drop: each turn reads at least a byte of the payload. -/
def websockDropLoop (e : Env) : Nat → Conn → Conn
  | 0, s => s
  | fuel + 1, s =>
    if s.length = 0 then s
    else
      match websockRead e.stack 8000 s with
      | (.data _, s) => websockDropLoop e fuel s
      | (_, s) => s

def websockDrop (e : Env) (s : Conn) : Conn := websockDropLoop e s.length s

inductive ReadEnd where
  | done
  | failed
  | blocked
  deriving DecidableEq, Repr

/-- The loop of aws_read: without bytes it polls, for ever when none will come. -/
def awsReadLoop (e : Env) : Nat → Nat → Conn → ReadEnd × Conn
  | 0, _, s => (.blocked, s)
  | fuel + 1, size, s =>
    if size = 0 then (.done, s)
    else
      match websockRead (e.heap + s.buffer.length) size s with
      | (.data b, t) => awsReadLoop e fuel (size - b.length) { t with buffer := t.buffer ++ b }
      | (.again, t) =>
        if s.later = [] then (.blocked, { t with blocked := true }) else awsReadLoop e fuel size t
      | (.closed, t) => (.failed, t)

def awsRead (e : Env) (size : Nat) (s : Conn) : ReadEnd × Conn :=
  awsReadLoop e (size + s.later.length + 1) size s

def awsOnClose (e : Env) (code size : Nat) (s : Conn) : Conn :=
  let s := { s with state := .waiting, buffer := [] }
  if e.onClose then
    match awsRead e size s with
    | (.failed, s) => s.tell [.onClose code none]
    | (.done, s) => { s with buffer := [] }.tell [.onClose code (some s.buffer)]
    | (.blocked, s) => s
  else afbWsHangup e (websockDrop e s)

def awsDropError (e : Env) (code : Nat) (s : Conn) : Conn :=
  websockError e code (websockDrop e { s with state := .waiting, buffer := [] })

def awsContinue (e : Env) (last : Bool) (size : Nat) (s : Conn) : Conn :=
  match awsRead e size s with
  | (.failed, s) => awsDropError e WEBSOCKET_CODE_ABNORMAL s
  | (.done, s) =>
    if last then
      let istxt : Bool := s.state = .readingText
      { s with state := .waiting, buffer := [] }.tell
        [if istxt then .onText s.buffer else .onBinary s.buffer]
    else s
  | (.blocked, s) => s

/-- Common text of aws_on_text and aws_on_binary. -/
def awsOnData (e : Env) (set : Bool) (reading : State) (last : Bool) (size : Nat) (s : Conn) : Conn :=
  if s.state ≠ .waiting then awsDropError e WEBSOCKET_CODE_PROTOCOL_ERROR s
  else if !set then awsDropError e WEBSOCKET_CODE_CANT_ACCEPT s
  else awsContinue e last size { s with state := reading }

def awsOnText (e : Env) : Bool → Nat → Conn → Conn := awsOnData e e.onText .readingText

def awsOnBinary (e : Env) : Bool → Nat → Conn → Conn := awsOnData e e.onBinary .readingBinary

def awsOnContinue (e : Env) (last : Bool) (size : Nat) (s : Conn) : Conn :=
  if s.state = .waiting then awsDropError e WEBSOCKET_CODE_PROTOCOL_ERROR s
  else awsContinue e last size s

/-- The end of STATE_LENGTH, once the heading is read. -/
def dispatchFrame (e : Env) (s : Conn) : Conn :=
  let length := headingLength s.header
  let s := { s with length := length }
  if length > e.maxlength then websockError e WEBSOCKET_CODE_MESSAGE_TOO_LARGE s
  else
    let s := { s with mask := headingMask s.header s.szhead, wsState := .data }
    let opcode := frameGetOpcode (byteAt s.header 0)
    let last := frameGetFin (byteAt s.header 0)
    if !rsvClear s.header then websockError e WEBSOCKET_CODE_PROTOCOL_ERROR s
    else if opcode = OPCODE_CONTINUATION then awsOnContinue e last length s
    else if opcode = OPCODE_TEXT then awsOnText e last length s
    else if opcode = OPCODE_BINARY then awsOnBinary e last length s
    else if opcode = OPCODE_CLOSE then awsOnClose e (closeCode s.header s.szhead length) length s
    else if opcode = OPCODE_PING then
      { (websockDrop e s).tell (websockPong []) with wsState := .init }
    else if opcode = OPCODE_PONG then { websockDrop e s with wsState := .init }
    else websockError e WEBSOCKET_CODE_PROTOCOL_ERROR s

/-- STATE_LENGTH. The dispatch fails with EPIPE when the peer closed. -/
def dispatchLength (e : Env) (s : Conn) : Bool × Conn :=
  match readHeader s with
  | (.again, s) => (false, s)
  | (.closed, s) => (true, s)
  | (.data _, s) => (false, if s.header.length < s.szhead then s else dispatchFrame e s)

/-- STATE_START. -/
def dispatchStart (e : Env) (s : Conn) : Bool × Conn :=
  match readHeader s with
  | (.again, s) => (false, s)
  | (.closed, s) => (true, s)
  | (.data _, s) =>
    if s.header.length < s.szhead then (false, s)
    else if startRefused s.header then (false, websockError e WEBSOCKET_CODE_PROTOCOL_ERROR s)
    else dispatchLength e { s with szhead := headingSize s.header, wsState := .length }

/-- STATE_INIT. -/
def dispatchInit (e : Env) (s : Conn) : Bool × Conn :=
  dispatchStart e { s with header := [], szhead := 2, wsState := .start }

/-- websock_dispatch without loop: it returns after one frame at most. -/
def websockDispatch (e : Env) (s : Conn) : Bool × Conn :=
  match s.wsState with
  | .init => dispatchInit e s
  | .start => dispatchStart e s
  | .length => dispatchLength e s
  | .data => if s.length ≠ 0 then (false, s) else dispatchInit e s

def awsOnReadable (e : Env) (s : Conn) : Conn :=
  match websockDispatch e s with
  | (true, s) => afbWsHangup e s
  | (false, s) => s

/-- The bytes that were not read yet. -/
def Conn.stream (s : Conn) : Bytes := s.avail ++ s.later.flatten

/-- Calls of aws_on_readable until the stream is consumed or the websocket disconnected. -/
def calls (e : Env) : Nat → Conn → Conn
  | 0, s => s
  | n + 1, s =>
    if s.connected ∧ s.stream ≠ [] then calls e n (awsOnReadable e s) else s

end AfbBinder.Websock
