import AfbBinder.Aws.Writev
import AfbBinder.ProtoWs.RoundTrip
import AfbBinder.Websock.Streams

/-! The messages of the binder protocol over their websocket: built, written in one frame each by
afb_ws_binary_v as far as the socket takes it, received in any chunks and processed. -/
namespace AfbBinder.ProtoWs
open Lib.Cstrings Lib.Le32 Lib.Reader Websock
variable {J : Type}

/-- What is left of the calls and of the requests of description once a message is processed. -/
def Message.after (p : Protows) : Message J → Protows
  | .reply callid _ _ _ => ((clientCallSearch p callid).map (clientCallDestroy p)).getD p
  | .description descid _ => { p with describes := p.describes.eraseP (·.descid = descid) }
  | _ => p

section
variable {mem : Memory} {jc : Jsonc J} {p : Protows} {rb : Window} {b : Bytes}

end

/-- A message that is sent: where the entries given to writev are, and what the socket does. -/
structure Sending (J : Type) where
  message : Message J
  memory : Nat → UInt8
  iovecs : Aws.Iovecs
  attempts : List Aws.Attempt

namespace Sending

/-- The data of the frame. -/
def data (jc : Jsonc J) (s : Sending J) : Bytes := ((s.message.encode jc).getD []).flatten

/-- The message is built, its frame is in the entries, and the receiver takes its length. -/
structure Built (jc : Jsonc J) (maxlength : Nat) (s : Sending J) : Prop where
  encoded : (s.message.encode jc).isSome
  framed : (s.message.encode jc).bind (websockSendV 1 0 0 0 OPCODE_BINARY) =
    some (s.iovecs.val.map (Aws.Iovec.bytes s.memory))
  size : (s.data jc).length ≤ maxlength
  bound : (s.data jc).length < 2 ^ 64

/-- Whether afb_ws_binary_v succeeds, and what the socket took. -/
def write (s : Sending J) : Bool × Bytes :=
  match Aws.awsWritev s.memory s.iovecs s.attempts with
  | some (.returned rc _ st) => (0 ≤ rc, st.accepted)
  | some (.waiting st) => (false, st.accepted)
  | none => (false, [])

end Sending

/-- The bytes that the socket takes for messages sent one after the other, until one of them is not
written whole. -/
def transmit : List (Sending J) → Bytes
  | [] => []
  | s :: rest => s.write.2 ++ if s.write.1 then transmit rest else []

section
variable {jc : Jsonc J} {s : Sending J} {maxlength : Nat}

def Sending.whole (jc : Jsonc J) (s : Sending J) : Whole := ⟨false, s.data jc⟩

private theorem contents_built (h : s.Built jc maxlength) :
    Aws.contents s.memory s.iovecs.val = (s.whole jc).frame := by
  obtain ⟨wb, hwb⟩ := Option.isSome_iff_exists.mp h.encoded
  have hframed := h.framed
  have hdata : s.data jc = wb.flatten := by rw [Sending.data, hwb]; rfl
  rw [hwb, Option.bind_some] at hframed
  have hcount : wb.length ≤ 31 := by
    by_contra hlong
    rw [websockSendV, websockSendInternalV, if_pos (by omega)] at hframed
    cases hframed
  have hsize := h.bound
  rw [hdata] at hsize
  obtain ⟨iov, hiov, hflat⟩ := websockSendInternalV_eq (frameSetFin 1 ||| frameSetRsv1 0 ||| frameSetRsv1 0 |||
    frameSetRsv1 0 ||| frameSetOpcode OPCODE_BINARY) hcount hsize
  rw [websockSendV, hiov] at hframed
  rw [Aws.contents, List.flatMap_def, ← Option.some.inj hframed, hflat, Sending.whole, Whole.frame, hdata]
  rfl

/-- The socket takes the first bytes of the frame, and all of them when the write succeeds. -/
theorem write_spec (h : s.Built jc maxlength) :
    s.write.2 <+: (s.whole jc).frame ∧ (s.write.1 = true → s.write.2 = (s.whole jc).frame) := by
  rw [← contents_built h, Sending.write, Aws.awsWritev]
  obtain ⟨l, hl⟩ := s.iovecs
  dsimp only
  cases hsum : Aws.addSizes l 0 with
  | error e => exact ⟨List.nil_prefix, fun h => absurd h Bool.false_ne_true⟩
  | ok dsz =>
    have htotal := Aws.addSizes_spec hl (Int.le_refl 0) (by decide) hsum
    rw [Int.zero_add, ← Aws.contents_length s.memory] at htotal
    dsimp only
    split_ifs with hzero
    · have hnil : Aws.contents s.memory l = [] := List.length_eq_zero_iff.mp (by omega)
      exact ⟨List.nil_prefix, fun _ => hnil.symm⟩
    · have hstart : (Aws.Writing.start l dsz).Sound s.memory l :=
        ⟨⟨rfl, fun _ => rfl, Nat.zero_add _, hl⟩, rfl, htotal⟩
      obtain ⟨outcome, hloop, -, htaken, hall⟩ := Aws.writeLoop_spec dsz hstart s.attempts
      rw [hloop]
      cases outcome with
      | waiting st => exact ⟨htaken, fun h => absurd h Bool.false_ne_true⟩
      | returned rc e st => exact ⟨htaken, fun hrc => (hall rc e st rfl (by simpa using hrc)).2⟩

end

end AfbBinder.ProtoWs
