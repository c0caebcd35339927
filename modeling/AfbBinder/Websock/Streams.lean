import AfbBinder.Websock.Chunked
import AfbBinder.Websock.Frames

/-! Streams of messages that are sent in one frame each, as afb_ws sends them: what is told of
them whatever the chunks in which they come. -/
namespace AfbBinder.Websock
open Lib.Cstrings Lib.Chunks Decoder

structure Whole where
  istxt : Bool
  data : Bytes
  deriving DecidableEq, Repr

namespace Whole

def opcode (w : Whole) : UInt8 := if w.istxt then OPCODE_TEXT else OPCODE_BINARY

def frame (w : Whole) : Bytes := finFrame w.opcode w.data

def event (w : Whole) : Event := if w.istxt then .onText w.data else .onBinary w.data

/-- The receiver has a callback for the message and the message is not too long for it. -/
structure Accepted (e : Env) (w : Whole) : Prop where
  set : (if w.istxt then e.onText else e.onBinary) = true
  size : w.data.length ≤ e.maxlength
  bound : w.data.length < 2 ^ 64

end Whole

/-- The decoder is in a heading or in a payload that is read. -/
def Going (d : Decoder) : Prop :=
  (∃ h, d.phase = .heading h) ∨ ∃ purpose left mask, d.phase = .payload purpose left mask

section
variable {e : Env} {w : Whole} {x y : Bytes}

private theorem Going.tail {d : Decoder} (h : Going d) (n : Nat) : tail e d n = [] := by
  rcases h with ⟨h, hd⟩ | ⟨purpose, left, mask, hd⟩ <;> rw [Websock.tail, hd]

private def heading (w : Whole) : Heading := plainHeading (0x80 ||| w.opcode) w.data.length

private theorem first_fields : ∀ istxt : Bool, let opcode := if istxt then OPCODE_TEXT else OPCODE_BINARY
    frameGetOpcode (0x80 ||| opcode) = opcode ∧ frameGetFin (0x80 ||| opcode) = true ∧
      frameGetRsv1 (0x80 ||| opcode) = 0 ∧ frameGetRsv2 (0x80 ||| opcode) = 0 ∧ frameGetRsv3 (0x80 ||| opcode) = 0 ∧
      opcode ≠ OPCODE_CLOSE ∧ opcode ≠ OPCODE_PING ∧ opcode ≠ OPCODE_PONG := by
  decide

/-- Where a message starts to be read. -/
private def inside (w : Whole) : Decoder := ⟨.heading [], if w.istxt then .readingText else .readingBinary, []⟩

end

end AfbBinder.Websock
