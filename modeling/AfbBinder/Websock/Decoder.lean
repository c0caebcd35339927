import AfbBinder.Lib.Chunks
import AfbBinder.Websock.Model

/-! The decoder of frames as a machine that takes one byte at a time, whatever the chunks
are. It tells what is owed for a stream of bytes. -/
namespace AfbBinder.Websock
open Lib.Cstrings Lib.Chunks

/-- What a payload is read for. -/
inductive Purpose where
  | message (last : Bool)
  | close (code : Nat)
  deriving DecidableEq, Repr

/-- Where the decoder is: in a heading, in a payload that is read or dropped, deaf after a
refused frame, repeating an error (more tells that bytes remained), or disconnected. -/
inductive Phase where
  | heading (h : Bytes)
  | payload (purpose : Purpose) (left : Nat) (mask : Mask)
  | dropping (left : Nat)
  | stuck
  | erring (code : Nat) (more : Bool)
  | ended
  deriving DecidableEq, Repr

structure Decoder where
  phase : Phase
  state : State
  buffer : Bytes
  deriving DecidableEq, Repr

namespace Decoder

def start : Decoder := ⟨.heading [], .waiting, []⟩

def hangupEvents (e : Env) : List Event := if e.onHangup then [.onHangup] else []

/-- What an error tells. -/
def errorEvents (e : Env) (code : Nat) : List Event :=
  websockClose code [] ++ if e.onError then [.onError code] else hangupEvents e

/-- An error ends the connection unless the interface handles it. -/
def fail (e : Env) (code : Nat) (d : Decoder) : Decoder × List Event :=
  (if e.onError then d else { d with phase := .ended }, errorEvents e code)

/-- The payload that is dropped after the heading. -/
def drop (left : Nat) (d : Decoder) : Decoder :=
  { d with phase := if left = 0 then .heading [] else .dropping left }

/-- A frame of data that is not expected. -/
def refuse (e : Env) (code left : Nat) (d : Decoder) : Decoder × List Event :=
  fail e code ({ d with state := .waiting, buffer := [] }.drop left)

def endPayload (d : Decoder) : Purpose → Decoder × List Event
  | .message true => (⟨.heading [], .waiting, []⟩,
      [if d.state = .readingText then .onText d.buffer else .onBinary d.buffer])
  | .message false => ({ d with phase := .heading [] }, [])
  | .close code => (⟨.heading [], .waiting, []⟩, [.onClose code (some d.buffer)])

def payload (purpose : Purpose) (left : Nat) (mask : Mask) (d : Decoder) : Decoder × List Event :=
  if left = 0 then d.endPayload purpose else ({ d with phase := .payload purpose left mask }, [])

def close (e : Env) (code left : Nat) (mask : Mask) (d : Decoder) : Decoder × List Event :=
  if e.onClose then payload (.close code) left mask { d with state := .waiting, buffer := [] }
  else (⟨.ended, .waiting, []⟩, hangupEvents e)

def data (e : Env) (set : Bool) (reading : State) (last : Bool) (left : Nat) (mask : Mask)
    (d : Decoder) : Decoder × List Event :=
  if d.state ≠ .waiting then refuse e WEBSOCKET_CODE_PROTOCOL_ERROR left d
  else if !set then refuse e WEBSOCKET_CODE_CANT_ACCEPT left d
  else payload (.message last) left mask { d with state := reading }

def continuation (e : Env) (last : Bool) (left : Nat) (mask : Mask) (d : Decoder) :
    Decoder × List Event :=
  if d.state = .waiting then refuse e WEBSOCKET_CODE_PROTOCOL_ERROR left d
  else payload (.message last) left mask d

/-- A frame that has no meaning: its payload is not read. -/
def unknown (e : Env) (left : Nat) (d : Decoder) : Decoder × List Event :=
  fail e WEBSOCKET_CODE_PROTOCOL_ERROR
    { d with phase := if left = 0 then .heading [] else .stuck }

/-- The heading is complete. -/
def frame (e : Env) (h : Bytes) (d : Decoder) : Decoder × List Event :=
  let left := headingLength h
  let mask := headingMask h (headingSize h)
  let opcode := frameGetOpcode (byteAt h 0)
  let last := frameGetFin (byteAt h 0)
  if left > e.maxlength then
    fail e WEBSOCKET_CODE_MESSAGE_TOO_LARGE
      { d with phase := .erring WEBSOCKET_CODE_MESSAGE_TOO_LARGE false }
  else if !rsvClear h then unknown e left d
  else if opcode = OPCODE_CONTINUATION then continuation e last left mask d
  else if opcode = OPCODE_TEXT then data e e.onText .readingText last left mask d
  else if opcode = OPCODE_BINARY then data e e.onBinary .readingBinary last left mask d
  else if opcode = OPCODE_CLOSE then close e (closeCode h (headingSize h) left) left mask d
  else if opcode = OPCODE_PING then (d.drop left, websockPong [])
  else if opcode = OPCODE_PONG then (d.drop left, [])
  else unknown e left d

/-- The two first bytes are refused, or the heading is complete. -/
def complete (e : Env) (h : Bytes) (d : Decoder) : Decoder × List Event :=
  if startRefused h then
    fail e WEBSOCKET_CODE_PROTOCOL_ERROR
      { d with phase := .erring WEBSOCKET_CODE_PROTOCOL_ERROR false }
  else frame e h d

/-- The size of heading that these first bytes tell. -/
def need (h : Bytes) : Nat :=
  if h.length < 2 then 2 else if startRefused h then 2 else headingSize h

def feed (e : Env) (d : Decoder) (b : UInt8) : Decoder × List Event :=
  match d.phase with
  | .heading h =>
    if (h ++ [b]).length < need (h ++ [b]) then ({ d with phase := .heading (h ++ [b]) }, [])
    else complete e (h ++ [b]) d
  | .payload purpose left mask =>
    payload purpose (left - 1) mask.rotate { d with buffer := d.buffer ++ [b ^^^ mask.b0] }
  | .dropping left => (d.drop (left - 1), [])
  | .stuck => (d, [])
  | .erring code _ => ({ d with phase := .erring code true }, [])
  | .ended => (d, [])

/-! Feeding a heading. -/

section
variable {e : Env} {d : Decoder} {h x : Bytes}

private theorem byteAt_append {i : Nat} (hi : i < h.length) : byteAt (h ++ x) i = byteAt h i := by
  simp [byteAt, List.getD, List.getElem?_append_left hi]

theorem headingSize_append (hh : 2 ≤ h.length) : headingSize (h ++ x) = headingSize h := by
  simp only [headingSize, byteAt_append (h := h) (x := x) (show 0 < h.length by omega),
    byteAt_append (h := h) (x := x) (show 1 < h.length by omega)]

theorem startRefused_append (hh : 2 ≤ h.length) : startRefused (h ++ x) = startRefused h := by
  simp only [startRefused, checkControlHeader, rsvClear,
    byteAt_append (h := h) (x := x) (show 0 < h.length by omega),
    byteAt_append (h := h) (x := x) (show 1 < h.length by omega)]

theorem need_append (hh : 2 ≤ h.length) : need (h ++ x) = need h := by
  have hlen : ¬ (h ++ x).length < 2 := by
    rw [List.length_append]
    omega
  simp only [need, if_neg hlen, if_neg (show ¬ h.length < 2 by omega), startRefused_append hh,
    headingSize_append hh]

private theorem length_lt_need (hx : (h ++ x).length < need (h ++ x)) : h.length < need h := by
  by_cases hh : h.length < 2
  · rwa [need, if_pos hh]
  · rw [need_append (by omega), List.length_append] at hx
    omega

theorem run_heading (hd : d.phase = .heading h) (hx : (h ++ x).length < need (h ++ x)) :
    run (feed e) d x = ({ d with phase := .heading (h ++ x) }, []) := by
  induction x generalizing d h with
  | nil =>
    rw [List.append_nil, ← hd]
    rfl
  | cons b x ih =>
    rw [List.append_cons] at hx
    have hb := length_lt_need hx
    have hfeed : feed e d b = ({ d with phase := .heading (h ++ [b]) }, []) := by
      rw [feed, hd]
      exact if_pos hb
    rw [run_cons, hfeed, ih rfl hx]
    simp

theorem run_complete (hd : d.phase = .heading h) (hne : x ≠ [])
    (hx : (h ++ x).length = need (h ++ x)) :
    run (feed e) d x = complete e (h ++ x) d := by
  obtain ⟨y, b, rfl⟩ : ∃ y b, x = y ++ [b] := ⟨_, _, (List.dropLast_append_getLast hne).symm⟩
  have hy : (h ++ y).length < need (h ++ y) := by
    by_cases hlt : (h ++ y).length < 2
    · rwa [need, if_pos hlt]
    · rw [← List.append_assoc, need_append (by omega), List.length_append] at hx
      simp only [List.length_singleton] at hx
      omega
  have hfeed : feed e { d with phase := .heading (h ++ y) } b = complete e (h ++ (y ++ [b])) d := by
    rw [← List.append_assoc] at hx ⊢
    rw [feed]
    exact if_neg (by omega)
  rw [run_append, run_heading hd hy, run_cons, hfeed]
  simp

end

/-! Feeding a payload. -/

section
variable {e : Env} {d : Decoder} {x : Bytes}

theorem payload_zero (purpose : Purpose) (mask : Mask) :
    payload purpose 0 mask d = d.endPayload purpose := if_pos rfl

theorem payload_pos (purpose : Purpose) {left : Nat} (mask : Mask) (h : left ≠ 0) :
    payload purpose left mask d = ({ d with phase := .payload purpose left mask }, []) := if_neg h

private theorem payload_phase (purpose : Purpose) (left : Nat) (mask : Mask) (phase : Phase) :
    payload purpose left mask { d with phase := phase } = payload purpose left mask d := by
  unfold payload endPayload
  cases purpose with
  | message last => cases last <;> rfl
  | close code => rfl

/-- The payload is read byte by byte, and the mask turns. -/
theorem run_payload (purpose : Purpose) (mask : Mask) {left : Nat} (hx : x.length ≤ left) :
    ((run (feed e) (payload purpose left mask d).1 x).1,
      (payload purpose left mask d).2 ++ (run (feed e) (payload purpose left mask d).1 x).2) =
    payload purpose (left - x.length) (unmaskBytes mask x).2
      { d with buffer := d.buffer ++ (unmaskBytes mask x).1 } := by
  induction x generalizing d left mask with
  | nil => simp [unmaskBytes]
  | cons b x ih =>
    rw [List.length_cons] at hx
    have hleft := payload_pos (d := d) purpose mask (show left ≠ 0 by omega)
    have hfeed : feed e { d with phase := .payload purpose left mask } b =
        payload purpose (left - 1) mask.rotate { d with buffer := d.buffer ++ [b ^^^ mask.b0] } :=
      payload_phase (d := { d with buffer := d.buffer ++ [b ^^^ mask.b0] }) ..
    rw [hleft, run_cons, hfeed, List.nil_append]
    have hlen : left - (b :: x).length = left - 1 - x.length := by
      rw [List.length_cons]
      omega
    rw [ih _ (by omega), hlen]
    simp only [unmaskBytes, List.append_assoc, List.singleton_append]

theorem run_drop {left : Nat} (hx : x.length ≤ left) :
    run (feed e) (d.drop left) x = (d.drop (left - x.length), []) := by
  induction x generalizing left with
  | nil => rfl
  | cons b x ih =>
    rw [List.length_cons] at hx
    have hfeed : feed e (d.drop left) b = (d.drop (left - 1), []) := by
      simp only [drop, feed, if_neg (show ¬ left = 0 by omega)]
    have hlen : left - (b :: x).length = left - 1 - x.length := by
      rw [List.length_cons]
      omega
    rw [run_cons, hfeed, ih (by omega), hlen]
    rfl

end

end Decoder

end AfbBinder.Websock
