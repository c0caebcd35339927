import AfbBinder.Websock.FrameTrip
import AfbBinder.Websock.Buffer

/-! The messages of a sequence of frames. -/
namespace AfbBinder.Websock.Reassembly
open Lib.Cstrings Lib.Chunks

inductive Kind where
  | continuation
  | text
  | binary
  | ping
  | pong
  deriving DecidableEq, Repr

def Kind.opcode : Kind → UInt8
  | .continuation => OPCODE_CONTINUATION
  | .text => OPCODE_TEXT
  | .binary => OPCODE_BINARY
  | .ping => OPCODE_PING
  | .pong => OPCODE_PONG

def Kind.isControl : Kind → Bool
  | .ping => true
  | .pong => true
  | _ => false

structure Frame where
  kind : Kind
  last : Bool
  length : LengthField
  mask : Option Mask
  payload : Bytes
  deriving DecidableEq, Repr

namespace Frame

def first (f : Frame) : UInt8 := (if f.last then 0x80 else 0) ||| f.kind.opcode

def heading (f : Frame) : Heading := ⟨f.first, f.length, f.mask⟩

/-- The payload as it is sent. -/
def masked (f : Frame) : Bytes := f.heading.unmasked f.payload

def bytes (f : Frame) : Bytes := f.heading.bytes ++ f.masked

/-- The length is the one of the payload, in 7 bits for a control frame. -/
structure WellFormed (maxlength : Nat) (f : Frame) : Prop where
  value : f.length.value = f.payload.length
  fits : f.payload.length ≤ maxlength
  control : f.kind.isControl → ∃ n, f.length = .seven n

end Frame

/-! What is owed for the frames. -/

/-- Nothing is started, a message is, or the websocket is disconnected. -/
inductive Progress where
  | idle
  | started (istxt : Bool) (data : Bytes)
  | off
  deriving DecidableEq, Repr

/-- A message that goes on, or ends. -/
def extend (istxt : Bool) (data : Bytes) (last : Bool) : Progress × List Event :=
  if last then (.idle, [if istxt then .onText data else .onBinary data]) else (.started istxt data, [])

/-- The protocol error. -/
def refuse (e : Env) : Progress × List Event :=
  (if e.onError then .idle else .off, Decoder.errorEvents e WEBSOCKET_CODE_PROTOCOL_ERROR)

def reassemble (e : Env) (p : Progress) (f : Frame) : Progress × List Event :=
  match p, f.kind with
  | .off, _ => (.off, [])
  | p, .ping => (p, websockPong [])
  | p, .pong => (p, [])
  | .idle, .text => extend true f.payload f.last
  | .idle, .binary => extend false f.payload f.last
  | .started istxt data, .continuation => extend istxt (data ++ f.payload) f.last
  | _, _ => refuse e

/-! One frame. -/

def reading (istxt : Bool) : State := if istxt then .readingText else .readingBinary

/-- The connection is between two frames with this progress. -/
def At (s : Conn) : Progress → Prop
  | .idle => s.connected = true ∧ s.Ready ∧ s.state = .waiting ∧ s.buffer = []
  | .started istxt data =>
    s.connected = true ∧ s.Ready ∧ s.state = reading istxt ∧ s.buffer = data
  | .off => s.connected = false ∧ s.state = .waiting

section
variable {e : Env} {s t : Conn} {f : Frame} {rest : Bytes}

private theorem first_fields : ∀ (last : Bool) (kind : Kind),
    frameGetOpcode ((if last then 0x80 else 0) ||| kind.opcode) = kind.opcode ∧
      frameGetFin ((if last then 0x80 else 0) ||| kind.opcode) = last ∧
      frameGetRsv1 ((if last then 0x80 else 0) ||| kind.opcode) = 0 ∧
      frameGetRsv2 ((if last then 0x80 else 0) ||| kind.opcode) = 0 ∧
      frameGetRsv3 ((if last then 0x80 else 0) ||| kind.opcode) = 0 := by
  intro last kind
  cases last <;> cases kind <;> decide

/-- The callback of a frame. -/
def Frame.call (f : Frame) : Call :=
  match f.kind with
  | .continuation => .onContinue f.last f.payload.length
  | .text => .onText f.last f.payload.length
  | .binary => .onBinary f.last f.payload.length
  | .ping => .ping
  | .pong => .pong

/-- The connection that the callback gets. -/
structure Headed (f : Frame) (rest : Bytes) (s t : Conn) : Prop where
  data : t.wsState = .data
  length : t.length = f.payload.length
  avail : t.avail = f.masked ++ rest
  unmasked : (unmaskBytes t.mask f.masked).1 = f.payload
  connected : t.connected = s.connected
  state : t.state = s.state
  buffer : t.buffer = s.buffer
  later : t.later = s.later
  events : t.events = s.events

private theorem not_close : ¬ f.heading.isClose := by
  have hopcode : frameGetOpcode f.heading.first = f.kind.opcode := (first_fields f.last f.kind).1
  rw [Heading.isClose, hopcode]
  cases f.kind <;> decide

private theorem not_refused {maxlength : Nat} (hf : f.WellFormed maxlength) :
    startRefused f.heading.bytes = false := by
  obtain ⟨hopcode, -, hrsv1, hrsv2, hrsv3⟩ := first_fields f.last f.kind
  have hfirst : byteAt f.heading.bytes 0 = (if f.last then 0x80 else 0) ||| f.kind.opcode := rfl
  have hsecond : byteAt f.heading.bytes 1 = f.heading.second := rfl
  have hclose : f.kind.opcode ≠ OPCODE_CLOSE := hopcode ▸ not_close (f := f)
  by_cases hcontrol : f.kind.isControl = true
  · obtain ⟨n, hn⟩ := hf.control hcontrol
    have hlen : f.heading.length.code.toNat ≤ 125 := by
      rw [show f.heading.length = .seven n from hn, LengthField.code, UInt8.toNat_ofNat']
      omega
    have hcheck : checkControlHeader f.heading.bytes = true := by
      simp [checkControlHeader, rsvClear, hfirst, hsecond, hopcode, hrsv1, hrsv2, hrsv3, hclose,
        payloadLen_second, hlen]
    simp [startRefused, hcheck]
  · have hping : f.kind.opcode ≠ OPCODE_PING ∧ f.kind.opcode ≠ OPCODE_PONG := by
      revert hcontrol
      cases f.kind <;> decide
    simp [startRefused, hfirst, hopcode, hclose, hping.1, hping.2]

private theorem length_heading {maxlength : Nat} (hf : f.WellFormed maxlength) :
    headingLength f.heading.bytes = f.payload.length := by
  have hbytes := headingLength_bytes f.heading (x := [])
  rw [List.append_nil, Heading.payloadLength, if_neg fun h => not_close h.1] at hbytes
  exact hbytes.trans hf.value

private theorem frameCall_frame (hf : f.WellFormed e.maxlength) (szhead : Nat) :
    frameCall e f.heading.bytes szhead = f.call := by
  obtain ⟨hopcode, hfin, hrsv1, hrsv2, hrsv3⟩ := first_fields f.last f.kind
  have hfirst : byteAt f.heading.bytes 0 = (if f.last then 0x80 else 0) ||| f.kind.opcode := rfl
  have hrsv : rsvClear f.heading.bytes = true := by simp [rsvClear, hfirst, hrsv1, hrsv2, hrsv3]
  have hfits := hf.fits
  simp only [frameCall, length_heading hf, hfirst, hopcode, hfin, hrsv, Frame.call]
  rw [if_neg (by omega)]
  cases f.kind <;> rfl

private theorem unmask_masked : (unmaskBytes (f.mask.getD .zero) f.masked).1 = f.payload := by
  rw [Frame.masked, Heading.unmasked, show f.heading.mask = f.mask from rfl]
  cases f.mask with
  | none => exact congrArg Prod.fst (unmaskBytes_zero f.payload)
  | some m =>
    rw [unmaskBytes_apply]
    exact Mask.apply_apply

/-- With its bytes at hand one call of websock_dispatch calls back for the frame. -/
theorem dispatch_headed (hf : f.WellFormed e.maxlength) (hready : s.Ready)
    (havail : s.avail = f.bytes ++ rest) :
    ∃ t, Headed f rest s t ∧ websockDispatch e s = (false, ((awsItf e).call e f.call (t, ())).1) := by
  have hsize : f.heading.bytes.length = headingSize f.heading.bytes := by
    have hbytes := headingSize_bytes f.heading (x := [])
    rw [List.append_nil, if_neg fun h => not_close h.1] at hbytes
    exact hbytes.symm
  have hmask : headingMask f.heading.bytes (headingSize f.heading.bytes) = f.mask.getD .zero := by
    rw [← hsize]
    exact headingMask_bytes
  have hwhole := dispatch_whole (awsItf e) (e := e) (g := ()) hready
    (havail.trans (List.append_assoc ..)) hsize (not_refused hf)
  rw [websockDispatch_aws, dispatchFrameWith] at hwhole
  have hfits : headingLength f.heading.bytes ≤ e.maxlength := by
    rw [length_heading hf]
    exact hf.fits
  have hafter := after_fits (s := s) (a := f.masked ++ rest) (l := s.later) hfits
  refine ⟨s.after e f.heading.bytes (f.masked ++ rest) s.later, ?_, ?_⟩
  · rw [hafter]
    exact ⟨rfl, length_heading hf, rfl, by rw [hmask]; exact unmask_masked, rfl, rfl, rfl, rfl, rfl⟩
  · obtain ⟨hepipe, hconn⟩ := Prod.mk.inj hwhole
    refine Prod.ext hepipe ((Prod.mk.inj hconn).1.trans ?_)
    rw [← frameCall_frame hf (headingSize f.heading.bytes)]
    rfl

private theorem length_masked : f.masked.length = f.payload.length := by
  rw [Frame.masked, Heading.unmasked]
  cases f.heading.mask with
  | none => rfl
  | some m => simp [Mask.apply]

private theorem take_masked : (f.masked ++ rest).take f.payload.length = f.masked ∧
    (f.masked ++ rest).drop f.payload.length = rest := by
  rw [← length_masked]
  exact ⟨List.take_left, List.drop_left⟩

/-- A frame is dispatched: what is owed for it is done. -/
structure Ends (s : Conn) (rest : Bytes) (out : Progress × List Event) (r : Conn) : Prop where
  progress : At r out.1
  avail : r.avail = rest
  later : r.later = s.later
  events : r.events = s.events ++ out.2

private theorem awsRead_frame (ht : Headed f rest s t) :
    awsRead e f.payload.length t = (.done, t.readPayload f.masked rest t.later) := by
  rw [awsRead, awsReadLoop]
  by_cases hz : f.payload.length = 0
  · have hnil : f.masked = [] := List.length_eq_zero_iff.mp (length_masked.trans hz)
    have havail := ht.avail
    rw [hnil, List.nil_append] at havail
    rw [if_pos hz, hnil, Conn.readPayload, ← havail]
    simp [unmaskBytes]
  · have ha : t.avail ≠ [] := by
      rw [ht.avail]
      intro hnil
      have hmasked := congrArg List.length (List.append_eq_nil_iff.mp hnil).1
      rw [length_masked] at hmasked
      exact hz hmasked
    rw [if_neg hz, websockRead_data ht.data ha, ht.length, Nat.min_self, ht.avail, take_masked.1,
      take_masked.2]
    dsimp only
    rw [length_unmaskBytes, length_masked, Nat.sub_self]
    obtain ⟨n, hn⟩ : ∃ n, f.payload.length + t.later.length = n + 1 := ⟨_, (Nat.succ_pred (by omega)).symm⟩
    rw [hn, awsReadLoop, if_pos rfl, Conn.readPayload, ht.length, length_masked, Nat.sub_self]

private theorem awsContinue_frame {istxt : Bool} (ht : Headed f rest s t) (hc : t.connected = true)
    (hstate : t.state = reading istxt) :
    Ends t rest (extend istxt (t.buffer ++ f.payload) f.last) (awsContinue e f.last f.payload.length t) := by
  have hready : (t.readPayload f.masked rest t.later).Ready := by
    refine .inr ⟨ht.data, ?_⟩
    rw [Conn.readPayload, ht.length, length_masked]
    exact Nat.sub_self _
  have hbuffer : (t.readPayload f.masked rest t.later).buffer = t.buffer ++ f.payload := by
    rw [Conn.readPayload, ht.unmasked]
  rw [awsContinue, awsRead_frame ht, extend]
  cases f.last with
  | false => exact ⟨⟨hc, hready, hstate, hbuffer⟩, rfl, rfl, (List.append_nil _).symm⟩
  | true =>
    have htext : decide ((t.readPayload f.masked rest t.later).state = .readingText) = istxt := by
      rw [show (t.readPayload f.masked rest t.later).state = reading istxt from hstate]
      cases istxt <;> rfl
    dsimp only
    rw [if_pos rfl, if_pos rfl, htext, hbuffer]
    exact ⟨⟨hc, hready, rfl, rfl⟩, rfl, rfl, rfl⟩

private theorem awsDropError_frame (ht : Headed f rest s t) (hc : t.connected = true) :
    Ends t rest (refuse e) (awsDropError e WEBSOCKET_CODE_PROTOCOL_ERROR t) := by
  have hlen : t.length ≤ t.avail.length := by
    rw [ht.length, ht.avail, List.length_append, length_masked]
    omega
  obtain ⟨m, hm⟩ := websockDrop_all e (s := { t with state := .waiting, buffer := [] }) ht.data hlen
  have hrest : t.avail.drop t.length = rest := by
    rw [ht.avail, ht.length]
    exact take_masked.2
  rw [awsDropError, hm, refuse]
  dsimp only
  rw [hrest]
  cases he : e.onError with
  | true =>
    rw [websockError_handled he]
    exact ⟨⟨hc, .inr ⟨ht.data, rfl⟩, rfl, rfl⟩, rfl, rfl, rfl⟩
  | false =>
    rw [websockError_hangup he (by exact hc)]
    exact ⟨⟨rfl, rfl⟩, rfl, rfl, rfl⟩

/-- A ping or a pong is dropped. -/
theorem drop_frame {p : Progress} (es : List Event) (ht : Headed f rest s t) (hp : At s p)
    (hoff : p ≠ .off) : Ends t rest (p, es) { (websockDrop e t).tell es with wsState := .init } := by
  have hlen : t.length ≤ t.avail.length := by
    rw [ht.length, ht.avail, List.length_append, length_masked]
    omega
  obtain ⟨m, hm⟩ := websockDrop_all e ht.data hlen
  have hrest : t.avail.drop t.length = rest := by
    rw [ht.avail, ht.length]
    exact take_masked.2
  rw [hm, hrest]
  refine ⟨?_, rfl, rfl, rfl⟩
  cases p with
  | idle => exact ⟨ht.connected.trans hp.1, .inl rfl, ht.state.trans hp.2.2.1, ht.buffer.trans hp.2.2.2⟩
  | started istxt data =>
    exact ⟨ht.connected.trans hp.1, .inl rfl, ht.state.trans hp.2.2.1, ht.buffer.trans hp.2.2.2⟩
  | off => exact absurd rfl hoff

section
variable {p : Progress}

private theorem At.connected (hp : At s p) (hoff : p ≠ .off) : s.connected = true := by
  cases p with
  | idle => exact hp.1
  | started istxt data => exact hp.1
  | off => exact absurd rfl hoff

private theorem At.ready (hp : At s p) (hoff : p ≠ .off) : s.Ready := by
  cases p with
  | idle => exact hp.2.1
  | started istxt data => exact hp.2.1
  | off => exact absurd rfl hoff

private theorem reading_ne (istxt : Bool) : reading istxt ≠ .waiting := by
  cases istxt <;> decide

/-- A text or a binary begins a message, unless one is started. -/
theorem awsOnData_frame (istxt : Bool) {set : Bool} (hset : set = true) (ht : Headed f rest s t)
    (hp : At s p) (hoff : p ≠ .off) {out : Progress × List Event}
    (hidle : p = .idle → out = extend istxt f.payload f.last)
    (hstarted : ∀ istxt' data, p = .started istxt' data → out = refuse e) :
    Ends t rest out (awsOnData e set (reading istxt) f.last f.payload.length t) := by
  have hc := ht.connected.trans (hp.connected hoff)
  rw [awsOnData, hset]
  cases p with
  | idle =>
    obtain ⟨-, -, hstate, hbuffer⟩ := hp
    have ht' : Headed f rest { s with state := reading istxt } { t with state := reading istxt } :=
      { ht with state := rfl }
    have hgo := awsContinue_frame (e := e) ht' hc rfl
    have hout : extend istxt (t.buffer ++ f.payload) f.last = out := by
      rw [ht.buffer, hbuffer, List.nil_append, hidle rfl]
    rw [← hout, if_neg (not_not.mpr (ht.state.trans hstate))]
    exact ⟨hgo.progress, hgo.avail, hgo.later, hgo.events⟩
  | started istxt' data =>
    obtain ⟨-, -, hstate, -⟩ := hp
    have hne : t.state ≠ .waiting := by
      rw [ht.state, hstate]
      exact reading_ne _
    rw [hstarted istxt' data rfl, if_pos hne]
    exact awsDropError_frame ht hc
  | off => exact absurd rfl hoff

private theorem awsOnContinue_frame (ht : Headed f rest s t) (hp : At s p) (hoff : p ≠ .off)
    (hkind : f.kind = .continuation) :
    Ends t rest (reassemble e p f) (awsOnContinue e f.last f.payload.length t) := by
  have hc := ht.connected.trans (hp.connected hoff)
  rw [awsOnContinue]
  cases p with
  | idle =>
    obtain ⟨-, -, hstate, -⟩ := hp
    rw [if_pos (ht.state.trans hstate)]
    simp only [reassemble, hkind]
    exact awsDropError_frame ht hc
  | started istxt data =>
    obtain ⟨-, -, hstate, hbuffer⟩ := hp
    rw [if_neg (by rw [ht.state, hstate]; exact reading_ne _)]
    simp only [reassemble, hkind]
    rw [← ht.buffer.trans hbuffer]
    exact awsContinue_frame ht hc (ht.state.trans hstate)
  | off => exact absurd rfl hoff

private theorem call_frame (htext : e.onText = true) (hbinary : e.onBinary = true)
    (ht : Headed f rest s t) (hp : At s p) (hoff : p ≠ .off) :
    Ends t rest (reassemble e p f) ((awsItf e).call e f.call (t, ())).1 := by
  rw [Frame.call]
  cases hkind : f.kind with
  | continuation => exact awsOnContinue_frame ht hp hoff hkind
  | text =>
    refine awsOnData_frame true htext ht hp hoff ?_ ?_
    · rintro rfl
      simp only [reassemble, hkind]
    · rintro istxt data rfl
      simp only [reassemble, hkind]
  | binary =>
    refine awsOnData_frame false hbinary ht hp hoff ?_ ?_
    · rintro rfl
      simp only [reassemble, hkind]
    · rintro istxt data rfl
      simp only [reassemble, hkind]
  | ping =>
    have hout : reassemble e p f = (p, websockPong []) := by
      cases p with
      | idle => simp only [reassemble, hkind]
      | started istxt data => simp only [reassemble, hkind]
      | off => exact absurd rfl hoff
    rw [hout]
    exact drop_frame _ ht hp hoff
  | pong =>
    have hout : reassemble e p f = (p, []) := by
      cases p with
      | idle => simp only [reassemble, hkind]
      | started istxt data => simp only [reassemble, hkind]
      | off => exact absurd rfl hoff
    have hdrop := drop_frame (e := e) [] ht hp hoff
    rw [Conn.tell, List.append_nil] at hdrop
    rw [hout]
    exact hdrop

private theorem awsOnReadable_frame (htext : e.onText = true) (hbinary : e.onBinary = true)
    (hf : f.WellFormed e.maxlength) (hp : At s p) (hoff : p ≠ .off) (havail : s.avail = f.bytes ++ rest) :
    Ends s rest (reassemble e p f) (awsOnReadable e s) := by
  obtain ⟨t, ht, hdispatch⟩ := dispatch_headed hf (hp.ready hoff) havail
  have hgo := call_frame htext hbinary ht hp hoff
  rw [awsOnReadable, hdispatch]
  exact ⟨hgo.progress, hgo.avail, hgo.later.trans ht.later, by rw [hgo.events, ht.events]⟩

end

end

/-! All the frames. -/

open Buffered in
private theorem readables_frames {e : Env} (fresh : Nat → UInt8) {rest : Bytes} {fs : List Frame}
    {p : Progress} {c : Conn × Heap} (htext : e.onText = true) (hbinary : e.onBinary = true)
    (hfs : ∀ f ∈ fs, f.WellFormed e.maxlength) (hs : Sound c) (hp : At (forget c) p)
    (havail : p ≠ .off → c.1.avail = (fs.map Frame.bytes).flatten ++ rest) :
    Sound (readables e fresh fs.length c) ∧
      At (forget (readables e fresh fs.length c)) (run (reassemble e) p fs).1 ∧
      (readables e fresh fs.length c).1.events = c.1.events ++ (run (reassemble e) p fs).2 := by
  induction fs generalizing p c with
  | nil => exact ⟨hs, hp, (List.append_nil _).symm⟩
  | cons f fs ih =>
    rw [List.forall_mem_cons] at hfs
    rw [List.length_cons, readables, run_cons]
    by_cases hoff : p = .off
    · subst hoff
      -- a websocket that is disconnected reads nothing
      have hstop : c.1.connected = false := hp.1
      have hstep (f : Frame) : reassemble e .off f = (.off, []) := by simp only [reassemble]
      rw [if_neg (by rw [hstop]; exact Bool.false_ne_true), hstep, run_fixed hstep]
      exact ⟨hs, hp, (List.append_nil _).symm⟩
    · have hc : (forget c).connected = true := At.connected hp hoff
      have hbytes := havail hoff
      rw [List.map_cons, List.flatten_cons, List.append_assoc] at hbytes
      have hframe := awsOnReadable_frame htext hbinary hfs.1 hp hoff hbytes
      obtain ⟨hsame, hsound⟩ := awsOnReadable_sim fresh (e := e) hs
      rw [hsame] at hframe
      obtain ⟨hsound', hat, hevents⟩ := ih hfs.2 hsound hframe.progress fun _ => hframe.avail
      rw [if_pos (show c.1.connected = true from hc)]
      refine ⟨hsound', hat, hevents.trans ?_⟩
      have htold : (Buffered.awsOnReadable e fresh c).1.events = c.1.events ++ (reassemble e p f).2 :=
        hframe.events
      rw [htold, List.append_assoc]

/-- The messages given to the interface are the ones of the frames, each with a NUL after it,
and the connection is left as they say. -/
theorem messages_reassembled (e : Env) (htext : e.onText = true) (hbinary : e.onBinary = true)
    (fresh : Nat → UInt8) (fs : List Frame) (hfs : ∀ f ∈ fs, f.WellFormed e.maxlength) (rest : Bytes)
    (later : List Bytes) (eof : Bool) :
    let q := Buffered.readables e fresh fs.length
      (Conn.start ((fs.map Frame.bytes).flatten ++ rest) later eof, Buffered.Heap.start)
    let owed := run (reassemble e) .idle fs
    q.1.events = owed.2 ∧ q.2.handed.map Buffered.dataOf = owed.2.filterMap Buffered.Event.data ∧
      (∀ b ∈ q.2.handed, Buffered.Terminated b) ∧ At (Buffered.forget q) owed.1 := by
  obtain ⟨hsound, hat, hevents⟩ := readables_frames fresh (p := .idle)
    (c := (Conn.start ((fs.map Frame.bytes).flatten ++ rest) later eof, Buffered.Heap.start)) htext
    hbinary hfs (Buffered.sound_start _ rfl) ⟨rfl, .inl rfl, rfl, rfl⟩ fun _ => rfl
  refine ⟨hevents, ?_, hsound.logged.2, hat⟩
  rw [hsound.logged.1, hevents]
  rfl

private def framesEnv : Env := ⟨true, true, true, true, true, 1048500, 0, 0⟩

/-- A text in three fragments, one of them empty, with a ping inside, then a continuation of
nothing. -/
private def sampleFrames : List Frame :=
  [⟨.text, false, .seven ⟨1, by decide⟩, some ⟨1, 2, 3, 4⟩, [0x41]⟩, ⟨.ping, true, .seven ⟨1, by decide⟩, none, [7]⟩,
    ⟨.continuation, false, .seven ⟨0, by decide⟩, none, []⟩, ⟨.continuation, true, .sixteen 0 1, none, [0x42]⟩,
    ⟨.continuation, true, .seven ⟨1, by decide⟩, none, [0x43]⟩]

theorem messages_reassembled_sample :
    (∀ f ∈ sampleFrames, f.WellFormed framesEnv.maxlength) ∧
      (run (reassemble framesEnv) .idle sampleFrames).2 =
        [.sent [0x8A, 0], .onText [0x41, 0x42], .sent [0x88, 2, 0x03, 0xEA], .onError 1002] ∧
      At (Buffered.forget (Buffered.readables framesEnv (fun _ => 0xFF) sampleFrames.length
        (Conn.start ((sampleFrames.map Frame.bytes).flatten ++ [0x81]) [] false, Buffered.Heap.start)))
        .idle := by
  have hfs : ∀ f ∈ sampleFrames, f.WellFormed framesEnv.maxlength := by
    intro f hf
    simp only [sampleFrames, List.mem_cons, List.not_mem_nil, or_false] at hf
    rcases hf with rfl | rfl | rfl | rfl | rfl
    · exact ⟨rfl, by decide, fun _ => ⟨_, rfl⟩⟩
    · exact ⟨rfl, by decide, fun _ => ⟨_, rfl⟩⟩
    · exact ⟨rfl, by decide, fun _ => ⟨_, rfl⟩⟩
    · exact ⟨rfl, by decide, fun h => nomatch h⟩
    · exact ⟨rfl, by decide, fun _ => ⟨_, rfl⟩⟩
  exact ⟨hfs, by decide, (messages_reassembled framesEnv rfl rfl (fun _ => 0xFF) sampleFrames hfs [0x81] []
    false).2.2.2⟩

end AfbBinder.Websock.Reassembly
