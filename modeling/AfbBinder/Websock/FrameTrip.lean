import AfbBinder.Websock.Frames

/-! From websock_send_v to websock_dispatch and websock_read: what is sent is what is
received, and what is made of any heading. -/
namespace AfbBinder.Websock
open Lib.Cstrings Decoder
variable {γ : Type} {e : Env} {itf : Itf γ}

/-- The callback of a data frame. -/
def dataCall (opcode : UInt8) (last : Bool) (size : Nat) : Call :=
  if opcode = OPCODE_CONTINUATION then .onContinue last size
  else if opcode = OPCODE_TEXT then .onText last size
  else .onBinary last size

def Heading.unmasked (hd : Heading) (payload : Bytes) : Bytes :=
  match hd.mask with
  | some m => m.apply payload
  | none => payload

section
variable {hd : Heading} {s : Conn} {g : γ} {code rest : Bytes}

/-- The code of a close is read with the heading. -/
def Heading.codeSize (hd : Heading) : Nat :=
  if hd.isClose ∧ hd.length.code.toNat ≠ 0 then 2 else 0

/-- The connection that the callback of a frame gets. -/
def Conn.after (e : Env) (s : Conn) (h a : Bytes) (l : List Bytes) : Conn := (s.headed h a l).decoded e

variable (itf) in
theorem dispatches_frame (hready : s.Ready) (hok : startRefused hd.bytes = false)
    (hcode : code.length = hd.codeSize) (hstream : s.stream = hd.bytes ++ code ++ rest) :
    ∃ n a l, a ++ l.flatten = rest ∧ dispatches e itf (n + 1) (s, g) =
      itf.call e (frameCall e (hd.bytes ++ code) (hd.bytes ++ code).length)
        (s.after e (hd.bytes ++ code) a l, g) := by
  have hsize : headingSize (hd.bytes ++ code) = (hd.bytes ++ code).length := by
    rw [headingSize_bytes, List.length_append, hcode]
    rfl
  have htwo : 2 ≤ hd.bytes.length := by
    rw [length_bytes]
    omega
  have hin : InHeading s [] := .inl ⟨rfl, hready⟩
  obtain ⟨n, a, l, hrest, hrun⟩ := dispatches_heading itf (e := e) (g := g) (x := hd.bytes ++ code)
    hin hstream hsize.symm (by rw [List.nil_append, startRefused_append htwo]; exact hok)
  refine ⟨n, a, l, hrest, hrun.trans ?_⟩
  rw [dispatchFrameWith, ← hsize]
  rfl

private theorem after_length {a : Bytes} {l : List Bytes} :
    (s.after e (hd.bytes ++ code) a l).length = hd.payloadLength := by
  rw [Conn.after, Conn.decoded]
  split_ifs
  · exact headingLength_bytes hd
  · exact headingLength_bytes hd

theorem after_fits {h a : Bytes} {l : List Bytes} (hfits : headingLength h ≤ e.maxlength) :
    s.after e h a l = { s with
      header := h
      szhead := headingSize h
      wsState := .data
      length := headingLength h
      mask := headingMask h (headingSize h)
      avail := a
      later := l } := if_neg (Nat.not_lt.mpr hfits)

theorem after_payloadLeft {a payload : Bytes} {l : List Bytes} (hfits : hd.payloadLength ≤ e.maxlength)
    (hstream : a ++ l.flatten = payload ++ rest) (hlen : payload.length = hd.payloadLength) :
    PayloadLeft (s.after e (hd.bytes ++ code) a l) payload rest := by
  rw [after_fits (by rw [headingLength_bytes]; exact hfits)]
  exact ⟨rfl, hstream, by rw [hlen]; exact headingLength_bytes hd⟩

/-- The frames other than a close are unmasked with their mask. -/
theorem after_gives {a payload : Bytes} {l : List Bytes} (hclose : ¬ hd.isClose)
    (hfits : hd.length.value ≤ e.maxlength) (hstream : a ++ l.flatten = payload ++ rest)
    (hlen : payload.length = hd.length.value) :
    Gives (s.after e hd.bytes a l) (hd.unmasked payload) rest := by
  have hpayload : hd.payloadLength = hd.length.value := if_neg fun h => hclose h.1
  have hsize : headingSize hd.bytes = hd.bytes.length := by
    have hbytes := headingSize_bytes hd (x := [])
    rwa [List.append_nil, if_neg fun h => hclose h.1] at hbytes
  have hleft : PayloadLeft (s.after e (hd.bytes ++ []) a l) payload rest :=
    after_payloadLeft (by rwa [hpayload]) hstream (hlen.trans hpayload.symm)
  rw [List.append_nil] at hleft
  have hmask : (s.after e hd.bytes a l).mask = hd.mask.getD .zero := by
    have hlength := headingLength_bytes hd (x := [])
    rw [List.append_nil] at hlength
    rw [after_fits (by rw [hlength, hpayload]; exact hfits), ← headingMask_bytes, hsize]
  rw [gives_iff hleft, hmask, Heading.unmasked]
  cases hd.mask with
  | none =>
    rw [← unmaskBytes_apply]
    exact congrArg Prod.fst (unmaskBytes_zero payload)
  | some m => rfl

end

/-! Sending then receiving. -/

def dataOpcodes : List UInt8 := [OPCODE_CONTINUATION, OPCODE_TEXT, OPCODE_BINARY]

/-- The first byte of a data frame. -/
def dataFirst (last : Bool) (opcode : UInt8) : UInt8 :=
  (if last then (1 : UInt8) else 0) <<< 7 ||| frameSetRsv1 0 ||| frameSetRsv1 0 ||| frameSetRsv1 0 |||
    frameSetOpcode opcode

private theorem dataFirst_fields : ∀ last : Bool, ∀ opcode ∈ dataOpcodes,
    frameGetOpcode (dataFirst last opcode) = opcode ∧ frameGetFin (dataFirst last opcode) = last ∧
      frameGetRsv1 (dataFirst last opcode) = 0 ∧ frameGetRsv2 (dataFirst last opcode) = 0 ∧
      frameGetRsv3 (dataFirst last opcode) = 0 ∧ opcode ≠ OPCODE_CLOSE ∧ opcode ≠ OPCODE_PING ∧
      opcode ≠ OPCODE_PONG := by
  intro last opcode h
  rw [dataOpcodes, List.mem_cons, List.mem_cons, List.mem_singleton] at h
  rcases h with rfl | rfl | rfl <;> cases last <;> decide

private theorem frameSetFin_eq (last : Int) :
    frameSetFin last = (if decide (last % 2 = 1) then (1 : UInt8) else 0) <<< 7 := by
  rw [frameSetFin]
  by_cases hlast : last % 2 = 1
  · simp [hlast]
  · have hzero : last % 2 = 0 := by omega
    simp [hzero]

section
variable {opcode : UInt8} {last : Bool} {hd : Heading} {x : Bytes}

private theorem data_not_refused (hopcode : opcode ∈ dataOpcodes)
    (hfirst : hd.first = dataFirst last opcode) : startRefused hd.bytes = false := by
  obtain ⟨hop, -, -, -, -, hclose, hping, hpong⟩ := dataFirst_fields last opcode hopcode
  have hbyte : byteAt hd.bytes 0 = dataFirst last opcode := hfirst
  simp [startRefused, hbyte, hop, hclose, hping, hpong]

private theorem data_not_close (hopcode : opcode ∈ dataOpcodes)
    (hfirst : hd.first = dataFirst last opcode) : ¬ hd.isClose := by
  obtain ⟨hop, -, -, -, -, hclose, -⟩ := dataFirst_fields last opcode hopcode
  rw [Heading.isClose, hfirst, hop]
  exact hclose

private theorem frameCall_data (hopcode : opcode ∈ dataOpcodes)
    (hfirst : hd.first = dataFirst last opcode) (hfits : hd.length.value ≤ e.maxlength) (szhead : Nat) :
    frameCall e hd.bytes szhead = dataCall opcode last hd.length.value := by
  obtain ⟨hop, hfin, hrsv1, hrsv2, hrsv3, -⟩ := dataFirst_fields last opcode hopcode
  have hbyte : byteAt hd.bytes 0 = dataFirst last opcode := hfirst
  have hlength : headingLength hd.bytes = hd.length.value := by
    have hbytes := headingLength_bytes hd (x := [])
    rw [List.append_nil] at hbytes
    exact hbytes.trans (if_neg fun h => data_not_close hopcode hfirst h.1)
  have hrsv : rsvClear hd.bytes = true := by simp [rsvClear, hbyte, hrsv1, hrsv2, hrsv3]
  simp only [frameCall, hlength, hbyte, hop, hfin, hrsv, dataCall]
  rw [if_neg (by omega)]
  simp only [Bool.not_true, Bool.false_eq_true, if_false]
  by_cases hcont : opcode = OPCODE_CONTINUATION
  · rw [if_pos hcont, if_pos hcont]
  rw [if_neg hcont, if_neg hcont]
  by_cases htext : opcode = OPCODE_TEXT
  · rw [if_pos htext, if_pos htext]
  rw [if_neg htext, if_neg htext]
  have hbinary : opcode = OPCODE_BINARY := by simpa [dataOpcodes, hcont, htext] using hopcode
  rw [if_pos hbinary]

end

/-- A data message is received as it was sent. -/
theorem sent_received {last : Int} {opcode : UInt8} {iovec : List Bytes}
    (hmax : e.maxlength < 2 ^ 64) (hopcode : opcode ∈ dataOpcodes) (hcount : iovec.length ≤ 31)
    (hsize : iovec.flatten.length ≤ e.maxlength) :
    ∃ iov, websockSendV last 0 0 0 opcode iovec = some iov ∧
      ∀ (s : Conn) (g : γ) (rest : Bytes), s.Ready → s.stream = iov.flatten ++ rest →
        ∃ n t, dispatches e itf (n + 1) (s, g) =
            itf.call e (dataCall opcode (last % 2 = 1) iovec.flatten.length) (t, g) ∧
          Gives t iovec.flatten rest := by
  obtain ⟨iov, hsent, hbytes⟩ := websockSendInternalV_eq
    (dataFirst (last % 2 = 1) opcode) hcount (Nat.lt_of_le_of_lt hsize hmax)
  refine ⟨iov, ?_, fun s g rest hready hstream => ?_⟩
  · rw [websockSendV, frameSetFin_eq]
    exact hsent
  · rw [websockSend_eq] at hbytes
    have hvalue : (plainHeading (dataFirst (last % 2 = 1) opcode) iovec.flatten.length).length.value =
        iovec.flatten.length := LengthField.value_shortest (Nat.lt_of_le_of_lt hsize hmax)
    have hclose : ¬ (plainHeading (dataFirst (last % 2 = 1) opcode) iovec.flatten.length).isClose :=
      data_not_close hopcode rfl
    have hcode : ([] : Bytes).length =
        (plainHeading (dataFirst (last % 2 = 1) opcode) iovec.flatten.length).codeSize :=
      (if_neg fun h => hclose h.1).symm
    have hsplit : s.stream = (plainHeading (dataFirst (last % 2 = 1) opcode) iovec.flatten.length).bytes ++ [] ++
        (iovec.flatten ++ rest) := by
      rw [hstream, hbytes]
      simp
    obtain ⟨n, a, l, hrest, hrun⟩ := dispatches_frame itf (e := e) (g := g) hready
      (data_not_refused hopcode rfl) hcode hsplit
    rw [List.append_nil, frameCall_data hopcode rfl (by rw [hvalue]; exact hsize), hvalue] at hrun
    exact ⟨n, _, hrun, after_gives hclose (by rw [hvalue]; exact hsize) hrest hvalue.symm⟩

/-! The index in the header. -/

/-- header has 14 bytes. -/
def HeadingFits (s : Conn) : Prop := s.header.length ≤ s.szhead ∧ s.szhead ≤ 14

/-- The two first bytes are read before any other. -/
def HeadingRead (s : Conn) : Prop := HeadingFits s ∧ (s.wsState = .start → s.szhead = 2)

def Conn.heading (s : Conn) : Bytes × Nat × WsState := (s.header, s.szhead, s.wsState)

/-- The callbacks do not touch the fields of the heading. -/
structure Itf.Blind (itf : Itf γ) : Prop where
  onContinue : ∀ last size p, (itf.onContinue last size p).1.heading = p.1.heading
  onText : ∀ last size p, (itf.onText last size p).1.heading = p.1.heading
  onBinary : ∀ last size p, (itf.onBinary last size p).1.heading = p.1.heading
  onClose : ∀ code size p, (itf.onClose code size p).1.heading = p.1.heading
  onError : ∀ code p, (itf.onError code p).1.heading = p.1.heading

section
variable {s t : Conn}

private theorem HeadingRead.of_heading (hs : HeadingRead s) (h : t.heading = s.heading) :
    HeadingRead t := by
  obtain ⟨hheader, h'⟩ := Prod.mk.inj h
  obtain ⟨hsz, hws⟩ := Prod.mk.inj h'
  rw [HeadingRead, HeadingFits, hheader, hsz, hws]
  exact hs

private theorem websockDrop_heading : (websockDrop e s).heading = s.heading := by
  rw [websockDrop, websockDropLoop_rest]
  rfl

private theorem awsReadLoop_heading (fuel size : Nat) :
    (awsReadLoop e fuel size s).2.heading = s.heading := by
  induction fuel generalizing s size with
  | zero => rfl
  | succ fuel ih =>
    have hread := congrArg Conn.heading (websockRead_rest s (e.heap + s.buffer.length) size)
    rw [awsReadLoop]
    split
    · rfl
    · cases h : websockRead (e.heap + s.buffer.length) size s with
      | mk rc t =>
        rw [h] at hread
        cases rc with
        | data b => exact (ih (size - b.length)).trans hread
        | again =>
          dsimp only
          split
          · exact hread
          · exact (ih size).trans hread
        | closed => exact hread

private theorem afbWsHangup_heading : (afbWsHangup e s).heading = s.heading := by
  unfold afbWsHangup
  split <;> rfl

private theorem awsOnError_heading (code : Nat) : (awsOnError e code s).heading = s.heading := by
  unfold awsOnError
  split
  · rfl
  · exact afbWsHangup_heading

private theorem awsDropError_heading (code : Nat) : (awsDropError e code s).heading = s.heading :=
  (awsOnError_heading code).trans websockDrop_heading

private theorem awsContinue_heading (last : Bool) (size : Nat) :
    (awsContinue e last size s).heading = s.heading := by
  have hread : (awsRead e size s).2.heading = s.heading := awsReadLoop_heading _ size
  unfold awsContinue
  cases h : awsRead e size s with
  | mk r t =>
    rw [h] at hread
    cases r with
    | failed => exact (awsDropError_heading _).trans hread
    | blocked => exact hread
    | done => cases last <;> exact hread

private theorem awsOnData_heading (set : Bool) (reading : State) (last : Bool) (size : Nat) :
    (awsOnData e set reading last size s).heading = s.heading := by
  unfold awsOnData
  split
  · exact awsDropError_heading _
  · split
    · exact awsDropError_heading _
    · exact awsContinue_heading last size

private theorem awsOnContinue_heading (last : Bool) (size : Nat) :
    (awsOnContinue e last size s).heading = s.heading := by
  unfold awsOnContinue
  split
  · exact awsDropError_heading _
  · exact awsContinue_heading last size

private theorem awsOnClose_heading (code size : Nat) : (awsOnClose e code size s).heading = s.heading := by
  have hread : (awsRead e size { s with state := .waiting, buffer := [] }).2.heading = s.heading :=
    awsReadLoop_heading _ size
  unfold awsOnClose
  dsimp only
  split
  · cases h : awsRead e size { s with state := .waiting, buffer := [] } with
    | mk r t =>
      rw [h] at hread
      cases r <;> exact hread
  · exact afbWsHangup_heading.trans websockDrop_heading

private theorem awsItf_blind (e : Env) : (awsItf e : Itf γ).Blind where
  onContinue last size _ := awsOnContinue_heading last size
  onText last size _ := awsOnData_heading _ _ last size
  onBinary last size _ := awsOnData_heading _ _ last size
  onClose code size _ := awsOnClose_heading code size
  onError code _ := awsOnError_heading code

end

section
variable {p : Conn × γ}

private theorem headingSize_le {h : Bytes} (hok : startRefused h = false) : headingSize h ≤ 14 := by
  unfold headingSize
  dsimp only
  by_cases hclose : frameGetOpcode (byteAt h 0) = OPCODE_CLOSE
  · have hlen : frameGetPayloadLen (byteAt h 1) ≤ 125 := by
      by_contra hlong
      simp [startRefused, checkControlHeader, hclose, hlong] at hok
    simp only [if_neg (show ¬ frameGetPayloadLen (byteAt h 1) = 127 by omega),
      if_neg (show ¬ frameGetPayloadLen (byteAt h 1) = 126 by omega)]
    split_ifs <;> omega
  · rw [if_neg fun h => hclose h.1]
    split_ifs <;> omega

private theorem readHeader_szhead {s : Conn} : (readHeader s).2.szhead = s.szhead := by
  have hread := congrArg Conn.heading (awsReadv_rest s (s.szhead - s.header.length))
  unfold readHeader
  split
  · cases h : awsReadv (s.szhead - s.header.length) s with
    | mk rc t =>
      rw [h] at hread
      cases rc <;> exact (Prod.mk.inj (Prod.mk.inj hread).2).1
  · rfl

private theorem readHeader_read {s : Conn} (hs : HeadingRead s) : HeadingRead (readHeader s).2 := by
  have hread := congrArg Conn.heading (awsReadv_rest s (s.szhead - s.header.length))
  unfold readHeader
  split
  · cases h : awsReadv (s.szhead - s.header.length) s with
    | mk rc t =>
      rw [h] at hread
      cases rc with
      | data b =>
        have hb : b.length ≤ s.szhead - s.header.length := by
          unfold awsReadv at h
          split at h
          · split at h
            · cases h
            · split at h <;> cases h
          · cases h
            exact List.length_take_le ..
        obtain ⟨⟨hlen, hmax⟩, hstart⟩ := hs.of_heading hread
        obtain ⟨hheader, hsz⟩ := Prod.mk.inj hread
        refine ⟨⟨?_, hmax⟩, hstart⟩
        have hszhead : t.szhead = s.szhead := (Prod.mk.inj hsz).1
        have hsame : t.header = s.header := hheader
        dsimp only at hlen ⊢
        rw [List.length_append, hsame, hszhead]
        rw [hsame, hszhead] at hlen
        omega
      | again => exact hs.of_heading hread
      | closed => exact hs.of_heading hread
  · exact hs

private theorem call_read (hblind : itf.Blind) (c : Call) (hs : HeadingRead p.1) :
    HeadingRead (itf.call e c p).1 := by
  have hdrop : HeadingRead (websockDrop e p.1) := hs.of_heading websockDrop_heading
  cases c with
  | onContinue last size => exact hs.of_heading (hblind.onContinue last size p)
  | onText last size => exact hs.of_heading (hblind.onText last size p)
  | onBinary last size => exact hs.of_heading (hblind.onBinary last size p)
  | onClose code size => exact hs.of_heading (hblind.onClose code size p)
  | ping => exact ⟨hdrop.1, fun h => nomatch h⟩
  | pong => exact ⟨hdrop.1, fun h => nomatch h⟩
  | error code => exact hs.of_heading (hblind.onError code _)

private theorem dispatchFrame_read (hblind : itf.Blind) (hs : HeadingRead p.1) :
    HeadingRead (dispatchFrameWith e itf p).1 := by
  refine call_read hblind _ ?_
  unfold Conn.decoded
  dsimp only
  split
  · exact hs
  · exact ⟨hs.1, fun h => nomatch h⟩

private theorem dispatchLength_read (hblind : itf.Blind) (hs : HeadingRead p.1) :
    HeadingRead (dispatchLengthWith e itf p).2.1 := by
  have hread := readHeader_read hs
  unfold dispatchLengthWith
  cases h : readHeader p.1 with
  | mk rc t =>
    rw [h] at hread
    cases rc with
    | again => exact hread
    | closed => exact hread
    | data b =>
      dsimp only
      split
      · exact hread
      · exact dispatchFrame_read (p := (t, p.2)) hblind hread

private theorem dispatchStart_read (hblind : itf.Blind) (hs : HeadingRead p.1)
    (hstart : p.1.wsState = .start) : HeadingRead (dispatchStartWith e itf p).2.1 := by
  have hread := readHeader_read hs
  have htwo : (readHeader p.1).2.szhead = 2 := readHeader_szhead.trans (hs.2 hstart)
  unfold dispatchStartWith
  cases h : readHeader p.1 with
  | mk rc t =>
    rw [h] at hread htwo
    cases rc with
    | again => exact hread
    | closed => exact hread
    | data b =>
      dsimp only
      split
      · exact hread
      · split
        · exact call_read (e := e) (p := (t, p.2)) hblind (.error WEBSOCKET_CODE_PROTOCOL_ERROR) hread
        · rename_i hok
          rw [Bool.not_eq_true] at hok
          refine dispatchLength_read hblind ⟨⟨?_, headingSize_le hok⟩, fun h => nomatch h⟩
          have hmin : 2 ≤ headingSize t.header := by
            unfold headingSize
            dsimp only
            omega
          exact (hread.1.1.trans (Nat.le_of_eq htwo)).trans hmin

private theorem dispatch_read (hblind : itf.Blind) (hs : HeadingRead p.1) :
    HeadingRead (websockDispatchWith e itf p).2.1 := by
  have hinit : HeadingRead (dispatchInitWith e itf p).2.1 :=
    dispatchStart_read hblind ⟨⟨Nat.zero_le 2, show 2 ≤ 14 by decide⟩, fun _ => rfl⟩ rfl
  unfold websockDispatchWith
  cases h : p.1.wsState with
  | init => exact hinit
  | start => exact dispatchStart_read hblind hs h
  | length => exact dispatchLength_read hblind hs
  | data =>
    dsimp only
    split
    · exact hs
    · exact hinit

private theorem dispatches_read (hblind : itf.Blind) (n : Nat) (hs : HeadingRead p.1) :
    HeadingRead (dispatches e itf n p).1 := by
  induction n generalizing p with
  | zero => exact hs
  | succ n ih => exact ih (dispatch_read hblind hs)

end

/-- Data messages are received as they were sent; the length of any heading is the big endian
value of its field, less the two bytes of the code of a close; the payload of a frame other
than a close is unmasked with the four bytes of its mask; the header never overflows. -/
theorem frames_received (e : Env) (hmax : e.maxlength < 2 ^ 64) (itf : Itf γ) (hblind : itf.Blind) :
    (∀ (last : Int) (opcode : UInt8) (iovec : List Bytes), opcode ∈ dataOpcodes → iovec.length ≤ 31 →
      iovec.flatten.length ≤ e.maxlength →
      ∃ iov, websockSendV last 0 0 0 opcode iovec = some iov ∧
        ∀ (s : Conn) (g : γ) (rest : Bytes), s.Ready → s.stream = iov.flatten ++ rest →
          ∃ n t, dispatches e itf (n + 1) (s, g) =
              itf.call e (dataCall opcode (last % 2 = 1) iovec.flatten.length) (t, g) ∧
            Gives t iovec.flatten rest) ∧
    (∀ (hd : Heading) (code rest : Bytes) (s : Conn) (g : γ), startRefused hd.bytes = false →
      code.length = hd.codeSize → s.Ready → s.stream = hd.bytes ++ code ++ rest →
      ∃ n t, dispatches e itf (n + 1) (s, g) =
          itf.call e (frameCall e (hd.bytes ++ code) (hd.bytes ++ code).length) (t, g) ∧
        t.length = (if hd.isClose ∧ hd.length.value ≠ 0 then hd.length.value - 2 else hd.length.value) ∧
        (¬ hd.isClose → hd.length.value ≤ e.maxlength → ∀ payload rest', rest = payload ++ rest' →
          payload.length = hd.length.value → Gives t (hd.unmasked payload) rest')) ∧
    ∀ (avail : Bytes) (later : List Bytes) (eof : Bool) (g : γ) (n : Nat),
      HeadingFits (dispatches e itf n (Conn.start avail later eof, g)).1 := by
  refine ⟨fun last opcode iovec hopcode hcount hsize => sent_received hmax hopcode hcount hsize,
    fun hd code rest s g hok hcode hready hstream => ?_, fun avail later eof g n => ?_⟩
  · obtain ⟨n, a, l, hrest, hrun⟩ := dispatches_frame itf (e := e) (g := g) hready hok hcode hstream
    refine ⟨n, _, hrun, after_length, fun hclose hfits payload rest' happ hlen => ?_⟩
    have hnil : code = [] := List.length_eq_zero_iff.mp (hcode.trans (if_neg fun h => hclose h.1))
    rw [hnil, List.append_nil]
    exact after_gives hclose hfits (hrest.trans happ) hlen
  · exact (dispatches_read (p := (Conn.start avail later eof, g)) hblind n
      ⟨⟨Nat.le_refl 0, Nat.zero_le 14⟩, fun h => nomatch h⟩).1

private def tripEnv : Env := ⟨true, true, true, true, true, 1048500, 0, 0⟩

theorem frames_received_sample : tripEnv.maxlength < 2 ^ 64 ∧
    websockSendV 1 0 0 0 OPCODE_TEXT [[0x41], [], [0x42]] = some [[0x81, 2], [0x41], [0x42]] ∧
    ∃ n t, dispatches tripEnv (awsItf tripEnv) (n + 1)
        (Conn.start [0x81] [[2, 0x41], [0x42, 0x89]] false, ()) =
      (awsItf tripEnv).call tripEnv (.onText true 2) (t, ()) ∧ Gives t [0x41, 0x42] [0x89] := by
  have htrip := (frames_received tripEnv (by decide) (awsItf tripEnv : Itf Unit) (awsItf_blind tripEnv)).1
  obtain ⟨iov, hsent, hreceived⟩ := htrip 1 OPCODE_TEXT [[0x41], [], [0x42]] (by decide) (by decide)
    (by decide)
  have hiov : websockSendV 1 0 0 0 OPCODE_TEXT [[0x41], [], [0x42]] =
      some [[0x81, 2], [0x41], [0x42]] := by decide
  obtain rfl : iov = [[0x81, 2], [0x41], [0x42]] := Option.some.inj (hsent.symm.trans hiov)
  exact ⟨by decide, hiov, hreceived (Conn.start [0x81] [[2, 0x41], [0x42, 0x89]] false) () [0x89]
    (.inl rfl) (by decide)⟩

/-- An interface that notes its calls. -/
private def tripItf : Itf (List Call) where
  onContinue last size p := (p.1, p.2 ++ [.onContinue last size])
  onText last size p := (p.1, p.2 ++ [.onText last size])
  onBinary last size p := (p.1, p.2 ++ [.onBinary last size])
  onClose code size p := (p.1, p.2 ++ [.onClose code size])
  onError code p := (p.1, p.2 ++ [.error code])

/-- A close of code 1000 with the reason "hi". -/
private def sampleClose : Heading := ⟨0x88, .seven 4, none⟩

private def sampleClosed : Conn × List Call :=
  dispatches tripEnv tripItf 1 (Conn.start (sampleClose.bytes ++ [0x03, 0xE8, 0x68, 0x69]) [] false, [])

/-- The code is not counted: the field says 4, the length decoded is 2. -/
theorem close_length_without_code :
    sampleClose.length.value = 4 ∧ sampleClosed.1.wsState = .data ∧
      sampleClosed.2 = [.onClose 1000 2] ∧ sampleClosed.1.length = 2 ∧
      sampleClosed.1.length ≠ sampleClose.length.value := by
  decide

end AfbBinder.Websock
