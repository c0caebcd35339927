import AfbBinder.Lib.CrLf
import AfbBinder.Lib.Json
import AfbBinder.Lib.Loops
import AfbBinder.Lib.Scanf

/-! The response to the upgrade that the client of websockets asked for: receive_line and
receive_response over a socket. -/
namespace AfbBinder.WsClient
open Lib.Cstrings Lib.CrLf Lib.Loops Lib.Scanf
open Lib.Json (ascii)

abbrev blank : UInt8 := 32
abbrev comma : UInt8 := 44
abbrev colon : UInt8 := 58

/-- sizeof line -/
def LINESIZE : Nat := 4096

/-- The bytes that the server sends before it closes, or before an error; and how many more
bytes than one are at hand at each read of the body. -/
structure Server where
  sent : Bytes
  closes : Bool
  more : Nat → Nat

/-- The loop of receive_line: the line is what was put in it and the rest of the array. A read at the
end of the stream gives no byte and is not an error: it leaves the byte of the array as it is. -/
def receiveLineLoop (closes : Bool) : Bytes → Bool → Bytes → Bytes → Option (Nat × Bytes × Bytes)
  | _, _, _, [] => none
  | done, cr, input, old :: line =>
    if input = [] ∧ closes = false then none
    else
      let c := input.headD old
      if c = CR then receiveLineLoop closes (done ++ [c]) true input.tail line
      else if cr = true ∧ c = LF then some (done.length - 1, input.tail, done.dropLast ++ 0 :: c :: line)
      else receiveLineLoop closes (done ++ [c]) false input.tail line

/-- The length, what is left of the stream, and the array, or -1. -/
def receiveLine (closes : Bool) (input line : Bytes) : Option (Nat × Bytes × Bytes) :=
  receiveLineLoop closes [] false input line

/-- The string of an array. -/
def cString (line : Bytes) : Bytes := line.takeWhile (· ≠ 0)

/-- HTTP/1.1, blanks, and 101 up to a blank or the end. -/
def statusOk (line : Bytes) : Bool :=
  let it := line.dropWhile (· ≠ blank)
  line.takeWhile (· ≠ blank) = ascii "HTTP/1.1" ∧ it.takeWhile (· = blank) ≠ [] ∧
    (it.dropWhile (· = blank)).takeWhile (· ≠ blank) = ascii "101"

def isheader (head : Bytes) (klen : Nat) (key : Bytes) : Bool :=
  strcasecmp (head.take klen) (key.take klen) = .eq ∧ key.getD klen 0 = 0

def secWebSocketAccept : Bytes := ascii "Sec-WebSocket-Accept"
def secWebSocketProtocol : Bytes := ascii "Sec-WebSocket-Protocol"
def upgrade : Bytes := ascii "Upgrade"
def contentLengthName : Bytes := ascii "Content-Length"

def LONG_MAX : Int := 0x7FFFFFFFFFFFFFFF

def isdigit (c : UInt8) : Bool := 48 ≤ c ∧ c ≤ 57

/-- atol, that stops at the ends of the range of long. -/
def atol (s : Bytes) : Int :=
  let (minus, s) := scanSign (s.dropWhile isspace)
  let n : Int := (s.takeWhile isdigit).foldl (fun n c => n * 10 + (c.toNat - 48)) 0
  if minus then max (-LONG_MAX - 1) (-n) else min LONG_MAX n

/-- The conversion of a long to a size_t. -/
def toSize (n : Int) : Nat := (n % 0x10000000000000000).toNat

/-- The variables of receive_response: result is none for -1. -/
structure Vars where
  haserr : Bool
  result : Option Nat
  len : Nat
  clen : Nat
  deriving DecidableEq, Repr

/-- strcspn(line, ": ") -/
def nameLength (str : Bytes) : Nat := (str.takeWhile fun c => !decide (c = colon ∨ c = blank)).length

/-- The place of the value, after the blanks and commas that begin it. -/
def valueStart (str : Bytes) : Nat :=
  nameLength str + 1 + ((str.drop (nameLength str + 1)).takeWhile fun c => decide (c = blank ∨ c = comma)).length

/-- The value, up to a blank or a comma. -/
def value (str : Bytes) : Bytes :=
  (str.drop (valueStart str)).takeWhile fun c => !decide (c = blank ∨ c = comma)

/-- len != 0 && line[len] == ':' -/
def hasHeader (str : Bytes) : Bool := nameLength str ≠ 0 ∧ str[nameLength str]? = some colon

/-- What a line of the header changes. -/
def Vars.scan (protocols : List Bytes) (ack : Bytes) (v : Vars) (str : Bytes) : Vars :=
  let len := nameLength str
  let v := { v with len }
  if hasHeader str then
    let it := value str
    if isheader str len secWebSocketAccept then if it ≠ ack then { v with haserr := true } else v
    -- the index of the NULL that ends the protocols when none is it
    else if isheader str len secWebSocketProtocol then { v with result := some (protocols.idxOf it) }
    else if isheader str len upgrade then if it ≠ ascii "websocket" then { v with haserr := true } else v
    else if isheader str len contentLengthName then { v with clen := toSize (atol it) }
    else v
  else v

/-- The NUL that is put after the value. -/
def cutValue (line : Bytes) : Bytes :=
  let str := cString line
  if hasHeader str then line.set (valueStart str + (value str).length) 0 else line

/-- The loop over the lines: the stream, the array and the variables. -/
structure Reading where
  input : Bytes
  line : Bytes
  vars : Vars
  deriving DecidableEq, Repr

def headerStep (closes : Bool) (protocols : List Bytes) (ack : Bytes) (s : Reading) :
    Except Unit (Reading ⊕ Reading) :=
  match receiveLine closes s.input s.line with
  | none => .error ()
  | some (length, input, line) =>
    if length = 0 then .ok (.inr ⟨input, line, s.vars⟩)
    else .ok (.inl ⟨input, cutValue line, s.vars.scan protocols ack (cString line)⟩)

/-- The reads of as many bytes as the array has, from the read of this number on. -/
def skipLoop (more : Nat → Nat) : Nat → Nat → Bytes → Bytes
  | 0, _, input => input
  | count + 1, k, input => skipLoop more count (k + 1) (input.drop (min LINESIZE (more k + 1)))

/-- The end of receive_response: the last read of the body asks for len bytes. -/
def skipBody (more : Nat → Nat) (clen len : Nat) (input : Bytes) : Bytes :=
  let count := clen / LINESIZE
  let input := skipLoop more count 0 input
  if 0 < clen % LINESIZE then input.drop (min len (more count + 1)) else input

/-- -1, or the index that is returned, with the bytes that are left unread. -/
inductive Answer where
  | error
  | index (r : Nat) (unread : Bytes)
  deriving DecidableEq, Repr

def finish (more : Nat → Nat) (s : Reading) : Answer :=
  let unread := skipBody more s.vars.clen s.vars.len s.input
  match s.vars.haserr, s.vars.result with
  | false, some r => .index r unread
  | _, _ => .error

/-- What is in the array before the first read. -/
def Stack : Type := { line : Bytes // line.length = LINESIZE }

def receiveResponse (server : Server) (stack : Stack) (protocols : List Bytes) (ack : Bytes) : Option Answer :=
  match receiveLine server.closes server.sent stack.1 with
  | none => some .error
  | some (_, input, line) =>
    if statusOk (cString line) then
      -- len is still the length of the status
      (iterate (headerStep server.closes protocols ack) (2 * input.length + LINESIZE + 1)
        ⟨input, line, ⟨false, none, 3, 0⟩⟩).map fun
        | .ok s => finish server.more s
        | .error _ => .error
    else some .error

end AfbBinder.WsClient
