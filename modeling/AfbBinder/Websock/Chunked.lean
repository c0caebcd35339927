import AfbBinder.Websock.Payload

/-! The code follows the decoder whatever the chunks, as long as no cut is in a payload that
it drops. -/
namespace AfbBinder.Websock
open Lib.Cstrings Lib.Chunks Decoder

/-- The code has read these bytes of a heading. -/
def InHeading (s : Conn) (h : Bytes) : Prop :=
  (h = [] ∧ (s.wsState = .init ∨ (s.wsState = .data ∧ s.length = 0))) ∨
  (s.wsState = .start ∧ s.header = h ∧ s.szhead = 2 ∧ h.length < 2) ∨
  (s.wsState = .length ∧ s.header = h ∧ s.szhead = headingSize h ∧ 2 ≤ h.length ∧
    h.length < headingSize h ∧ startRefused h = false)

/-- The code does again the same error at each call. -/
def Repeats (e : Env) (s : Conn) (code : Nat) : Prop :=
  e.onError = true ∧
    ((s.wsState = .start ∧ s.szhead = 2 ∧ s.header.length = 2 ∧ startRefused s.header = true ∧
        code = WEBSOCKET_CODE_PROTOCOL_ERROR) ∨
      (s.wsState = .length ∧ s.header.length = s.szhead ∧ s.length = headingLength s.header ∧
        e.maxlength < s.length ∧ code = WEBSOCKET_CODE_MESSAGE_TOO_LARGE))

/-- Between two calls, the state of the code for a state of the decoder. -/
def Rel (e : Env) (s : Conn) (d : Decoder) : Prop :=
  match d.phase with
  | .heading h => s.connected = true ∧ s.state = d.state ∧ s.buffer = d.buffer ∧ InHeading s h
  | .stuck => s.connected = true ∧ s.wsState = .data ∧ s.length ≠ 0
  | .erring code more => s.connected = true ∧ more = false ∧ Repeats e s code
  | .ended => s.connected = false
  | .payload _ _ _ | .dropping _ => False

def Phase.isDropping : Phase → Bool
  | .dropping _ => true
  | _ => false

/-- The decoder is not in a payload that is dropped. -/
def NotDropping (d : Decoder) : Prop := d.phase.isDropping = false

instance : DecidablePred NotDropping := fun _ => inferInstanceAs (Decidable (_ = _))

/-- The decoder repeats no error. -/
def NotErring (d : Decoder) : Prop := ∀ code more, d.phase ≠ .erring code more

/-- The decoder is at d and owes these events: the code read some bytes and did what the
decoder does of them. -/
def Follows (e : Env) (s : Conn) (d : Decoder) (es : List Event) (t : Conn) : Prop :=
  ∃ x, Reads s.avail s.later x t.avail t.later ∧ t.eof = s.eof ∧
    t.events = s.events ++ (es ++ (run (feed e) d x).2) ∧
    (Rel e t (run (feed e) d x).1 ∨ (t.stream = [] ∧ NotErring (run (feed e) d x).1))

section
variable {e : Env} {s t : Conn} {d : Decoder} {es : List Event}

private theorem run_ended {x : Bytes} (h : d.phase = .ended) : run (feed e) d x = (d, []) :=
  run_fixed (fun b => by rw [feed, h]) x

private theorem follows_here (havail : t.avail = s.avail) (hlater : t.later = s.later)
    (heof : t.eof = s.eof) (hevents : t.events = s.events ++ es) (hrel : Rel e t d) :
    Follows e s d es t := by
  refine ⟨[], ?_, heof, ?_, .inl hrel⟩
  · rw [havail, hlater]
    exact .none _ _
  · rw [hevents, run_nil, List.append_nil]

private theorem tell_nil (s : Conn) : s.tell [] = s := by rw [Conn.tell, List.append_nil]

private theorem afbWsHangup_connected (hc : s.connected = true) :
    afbWsHangup e s = { s with connected := false, state := .waiting }.tell (hangupEvents e) := by
  rw [afbWsHangup, if_pos hc]
  rfl

/-- An error of a connection that the interface handles leaves it as it is. -/
theorem websockError_handled (he : e.onError = true) (code : Nat) :
    websockError e code s = s.tell (errorEvents e code) := by
  simp [websockError, awsOnError, he, Conn.tell, errorEvents]

theorem websockError_hangup (he : e.onError = false) (hc : s.connected = true) (code : Nat) :
    websockError e code s =
      { s with connected := false, state := .waiting }.tell (errorEvents e code) := by
  simp [websockError, awsOnError, he, Conn.tell, errorEvents, afbWsHangup, hc, hangupEvents]

private theorem websockError_follows {code : Nat} (hc : s.connected = true)
    (hrel : e.onError = true → ∀ es, Rel e (s.tell es) d) :
    Follows e s (fail e code d).1 (fail e code d).2 (websockError e code s) := by
  cases he : e.onError with
  | true =>
    rw [websockError_handled he]
    simp only [fail, he, if_true]
    exact follows_here rfl rfl rfl rfl (hrel he _)
  | false =>
    rw [websockError_hangup he hc]
    simp only [fail, he, Bool.false_eq_true, if_false]
    exact follows_here rfl rfl rfl rfl rfl

/-- The payload is dropped, or the stream ends in it. -/
theorem drop_follows (es : List Event) (hc : s.connected = true) (hdata : s.wsState = .data)
    (hstate : s.state = d.state) (hbuffer : s.buffer = d.buffer)
    (hcuts : AtCuts (feed e) NotDropping (d.drop s.length) s.avail s.later) {w : WsState}
    (hw : w = .init ∨ w = .data) :
    Follows e s (d.drop s.length) es ({ websockDrop e s with wsState := w }.tell es) := by
  obtain ⟨x, m, a, l, n, hreads, hlen, hdrop, hend⟩ := websockDrop_spec e hdata
  have hrun : run (feed e) (d.drop s.length) x = (d.drop n, []) := by
    rw [run_drop (by omega), show s.length - x.length = n by omega]
  rw [hdrop]
  refine ⟨x, hreads, rfl, by rw [hrun, List.append_nil]; rfl, ?_⟩
  rw [hrun]
  by_cases hn : n = 0
  · subst hn
    refine .inl ⟨hc, hstate, hbuffer, .inl ⟨rfl, ?_⟩⟩
    exact hw.imp id fun hw => ⟨hw, rfl⟩
  · -- the cut is in the payload: nothing follows it
    obtain ⟨rfl, rfl, rfl⟩ := hend.resolve_left hn
    refine .inr ⟨?_, fun code more hp => ?_⟩
    · cases hl : s.later with
      | nil => simp [Conn.stream, Conn.tell]
      | cons c cs =>
        rw [hl] at hcuts
        have hflat : (c :: cs).flatten = [] := by
          by_contra hne
          have hnot := hcuts.1 hne
          rw [hrun, NotDropping, drop, if_neg hn] at hnot
          cases hnot
        simpa [Conn.stream, Conn.tell] using hflat
    · rw [drop, if_neg hn] at hp
      cases hp

private theorem websockDrop_connected (e : Env) (hc : s.connected = true)
    (hdata : s.wsState = .data) : (websockDrop e s).connected = true := by
  obtain ⟨x, m, a, l, n, -, -, hdrop, -⟩ := websockDrop_spec e hdata
  rw [hdrop]
  exact hc

private theorem hangup_follows (es : List Event) (hdata : s.wsState = .data)
    (hd : d.phase = .ended) :
    Follows e s d es ({ websockDrop e s with connected := false, state := .waiting }.tell es) := by
  obtain ⟨x, m, a, l, n, hreads, -, hdrop, -⟩ := websockDrop_spec e hdata
  rw [hdrop]
  refine ⟨x, hreads, rfl, ?_, .inl ?_⟩
  · rw [run_ended hd, List.append_nil]
    rfl
  · rw [run_ended hd, Rel, hd]
    rfl

private theorem awsDropError_follows {code : Nat} (hc : s.connected = true)
    (hdata : s.wsState = .data)
    (hcuts : AtCuts (feed e) NotDropping (refuse e code s.length d).1 s.avail s.later) :
    Follows e s (refuse e code s.length d).1 (refuse e code s.length d).2 (awsDropError e code s) := by
  unfold refuse fail at *
  rw [awsDropError]
  cases he : e.onError with
  | true =>
    simp only [he, if_true] at hcuts ⊢
    rw [websockError_handled he]
    have hsame : websockDrop e { s with state := .waiting, buffer := [] } =
        { websockDrop e { s with state := .waiting, buffer := [] } with wsState := .data } := by
      obtain ⟨x, m, a, l, n, -, -, hdrop, -⟩ :=
        websockDrop_spec e (s := { s with state := .waiting, buffer := [] }) hdata
      rw [hdrop, ← hdata]
    rw [hsame]
    exact drop_follows (s := { s with state := .waiting, buffer := [] })
      (d := { d with state := .waiting, buffer := [] }) _ hc hdata rfl rfl hcuts (.inr rfl)
  | false =>
    simp only [Bool.false_eq_true, if_false]
    have hconn := websockDrop_connected e (s := { s with state := .waiting, buffer := [] }) hc hdata
    rw [websockError_hangup he hconn]
    exact hangup_follows (s := { s with state := .waiting, buffer := [] }) _ hdata rfl

/-- The payload is read and used, or the stream ends in it. -/
theorem awsRead_follows {purpose : Purpose} {k : Conn → Conn} {t : Conn}
    (hc : s.connected = true) (hdata : s.wsState = .data) (heof : s.eof = false)
    (hstate : s.state = d.state) (hbuffer : s.buffer = d.buffer)
    (hblocked : ∀ u, awsRead e s.length s = (.blocked, u) → t = u)
    (hdone : ∀ u, awsRead e s.length s = (.done, u) → t = k u)
    (hk : ∀ u, u.connected = true → u.wsState = .data → u.length = 0 → u.state = d.state →
      Rel e (k u) (endPayload { d with buffer := u.buffer } purpose).1 ∧
      (k u).events = u.events ++ (endPayload { d with buffer := u.buffer } purpose).2 ∧
      (k u).avail = u.avail ∧ (k u).later = u.later ∧ (k u).eof = u.eof) :
    Follows e s (payload purpose s.length s.mask d).1 (payload purpose s.length s.mask d).2 t := by
  obtain ⟨x, a, l, hreads, hend⟩ := awsRead_spec e hdata heof
  have hrun := run_payload (e := e) (d := d) purpose s.mask (show x.length ≤ s.length by omega)
  rw [← hbuffer, Prod.ext_iff] at hrun
  obtain ⟨hstep, hevents⟩ := hrun
  dsimp only at hstep hevents
  rcases hend with ⟨hlen, hread⟩ | ⟨hlen, rfl, rfl, hread⟩
  · have hzero : s.length - x.length = 0 := by omega
    rw [hzero, payload_zero] at hstep hevents
    obtain ⟨hrel, htell, havail, hlater, heof'⟩ :=
      hk (s.readPayload x a l) hc hdata hzero hstate
    rw [hdone _ hread]
    refine ⟨x, ?_, heof', ?_, .inl ?_⟩
    · rw [havail, hlater]
      exact hreads
    · rw [htell, hevents]
      rfl
    · rw [hstep]
      exact hrel
  · have hmore : s.length - x.length ≠ 0 := by omega
    rw [payload_pos _ _ hmore] at hstep hevents
    rw [hblocked _ hread]
    refine ⟨x, hreads, rfl, ?_, .inr ⟨rfl, ?_⟩⟩
    · rw [hevents, List.append_nil]
      rfl
    · rw [hstep]
      intro code more h
      cases h

private theorem awsContinue_follows {last : Bool} (hc : s.connected = true)
    (hdata : s.wsState = .data) (heof : s.eof = false) (hstate : s.state = d.state)
    (hbuffer : s.buffer = d.buffer) :
    Follows e s (payload (.message last) s.length s.mask d).1
      (payload (.message last) s.length s.mask d).2 (awsContinue e last s.length s) := by
  unfold awsContinue
  refine awsRead_follows (k := fun u => if last then
      let istxt : Bool := u.state = .readingText
      { u with state := .waiting, buffer := [] }.tell
        [if istxt then .onText u.buffer else .onBinary u.buffer]
    else u) hc hdata heof hstate hbuffer (fun u hu => by rw [hu]) (fun u hu => by rw [hu])
    fun u hc hdata hlen hstate => ?_
  cases last with
  | true =>
    refine ⟨⟨hc, rfl, rfl, .inl ⟨rfl, .inr ⟨hdata, hlen⟩⟩⟩, ?_, rfl, rfl, rfl⟩
    simp [endPayload, hstate, Conn.tell]
  | false =>
    exact ⟨⟨hc, hstate, rfl, .inl ⟨rfl, .inr ⟨hdata, hlen⟩⟩⟩, (List.append_nil _).symm, rfl, rfl, rfl⟩

private theorem awsOnClose_follows {code : Nat} (hc : s.connected = true)
    (hdata : s.wsState = .data) (heof : s.eof = false) :
    Follows e s (close e code s.length s.mask d).1 (close e code s.length s.mask d).2
      (awsOnClose e code s.length s) := by
  unfold close awsOnClose
  dsimp only
  cases he : e.onClose with
  | true =>
    simp only [if_true]
    refine awsRead_follows (s := { s with state := .waiting, buffer := [] })
      (d := { d with state := .waiting, buffer := [] })
      (k := fun u => { u with buffer := [] }.tell [.onClose code (some u.buffer)]) hc hdata heof
      rfl rfl (fun u hu => by rw [hu]) (fun u hu => by rw [hu]) fun u hc hdata hlen hstate => ?_
    exact ⟨⟨hc, hstate, rfl, .inl ⟨rfl, .inr ⟨hdata, hlen⟩⟩⟩, rfl, rfl, rfl, rfl⟩
  | false =>
    simp only [Bool.false_eq_true, if_false]
    have hconn := websockDrop_connected e (s := { s with state := .waiting, buffer := [] }) hc hdata
    rw [afbWsHangup_connected hconn]
    exact hangup_follows (s := { s with state := .waiting, buffer := [] }) _ hdata rfl

private theorem awsOnData_follows {set last : Bool} {reading : State} (hc : s.connected = true)
    (hdata : s.wsState = .data) (heof : s.eof = false) (hstate : s.state = d.state)
    (hbuffer : s.buffer = d.buffer)
    (hcuts : AtCuts (feed e) NotDropping (data e set reading last s.length s.mask d).1
      s.avail s.later) :
    Follows e s (data e set reading last s.length s.mask d).1
      (data e set reading last s.length s.mask d).2 (awsOnData e set reading last s.length s) := by
  unfold data at *
  rw [awsOnData, hstate]
  by_cases hwait : d.state ≠ .waiting
  · rw [if_pos hwait] at hcuts
    rw [if_pos hwait, if_pos hwait]
    exact awsDropError_follows hc hdata hcuts
  · rw [if_neg hwait] at hcuts
    rw [if_neg hwait, if_neg hwait]
    cases set with
    | true => exact awsContinue_follows (s := { s with state := reading }) hc hdata heof rfl hbuffer
    | false => exact awsDropError_follows hc hdata hcuts

private theorem awsOnContinue_follows {last : Bool} (hc : s.connected = true)
    (hdata : s.wsState = .data) (heof : s.eof = false) (hstate : s.state = d.state)
    (hbuffer : s.buffer = d.buffer)
    (hcuts : AtCuts (feed e) NotDropping (continuation e last s.length s.mask d).1 s.avail s.later) :
    Follows e s (continuation e last s.length s.mask d).1 (continuation e last s.length s.mask d).2
      (awsOnContinue e last s.length s) := by
  unfold continuation at *
  rw [awsOnContinue, hstate]
  by_cases hwait : d.state = .waiting
  · rw [if_pos hwait] at hcuts
    rw [if_pos hwait, if_pos hwait]
    exact awsDropError_follows hc hdata hcuts
  · rw [if_neg hwait, if_neg hwait]
    exact awsContinue_follows hc hdata heof hstate hbuffer

private theorem unknown_follows (hc : s.connected = true) (hdata : s.wsState = .data)
    (hstate : s.state = d.state) (hbuffer : s.buffer = d.buffer) :
    Follows e s (unknown e s.length d).1 (unknown e s.length d).2
      (websockError e WEBSOCKET_CODE_PROTOCOL_ERROR s) := by
  refine websockError_follows hc fun _ es => ?_
  by_cases hz : s.length = 0
  · rw [if_pos hz]
    exact ⟨hc, hstate, hbuffer, .inl ⟨rfl, .inr ⟨hdata, hz⟩⟩⟩
  · rw [if_neg hz]
    exact ⟨hc, hdata, hz⟩

/-- A complete heading. -/
theorem dispatchFrame_follows (hc : s.connected = true) (hlength : s.wsState = .length)
    (hsz : s.szhead = headingSize s.header) (hfull : s.header.length = s.szhead)
    (heof : s.eof = false) (hstate : s.state = d.state) (hbuffer : s.buffer = d.buffer)
    (hcuts : AtCuts (feed e) NotDropping (frame e s.header d).1 s.avail s.later) :
    Follows e s (frame e s.header d).1 (frame e s.header d).2 (dispatchFrame e s) := by
  unfold frame at hcuts ⊢
  unfold dispatchFrame
  dsimp only at hcuts ⊢
  by_cases hlong : headingLength s.header > e.maxlength
  · simp only [if_pos hlong]
    exact websockError_follows (s := { s with length := headingLength s.header }) hc
      fun he _ => ⟨hc, rfl, he, .inr ⟨hlength, hfull, rfl, hlong, rfl⟩⟩
  simp only [if_neg hlong, hsz] at hcuts ⊢
  -- the state the callbacks are called in
  let s₂ : Conn := { s with
    szhead := headingSize s.header
    length := headingLength s.header
    mask := headingMask s.header (headingSize s.header)
    wsState := .data }
  by_cases hrsv : (!rsvClear s.header) = true
  · simp only [if_pos hrsv]
    exact unknown_follows (s := s₂) hc rfl hstate hbuffer
  simp only [if_neg hrsv] at hcuts ⊢
  by_cases hcont : frameGetOpcode (byteAt s.header 0) = OPCODE_CONTINUATION
  · simp only [if_pos hcont] at hcuts ⊢
    exact awsOnContinue_follows (s := s₂) hc rfl heof hstate hbuffer hcuts
  simp only [if_neg hcont] at hcuts ⊢
  by_cases htext : frameGetOpcode (byteAt s.header 0) = OPCODE_TEXT
  · simp only [if_pos htext] at hcuts ⊢
    exact awsOnData_follows (s := s₂) hc rfl heof hstate hbuffer hcuts
  simp only [if_neg htext] at hcuts ⊢
  by_cases hbin : frameGetOpcode (byteAt s.header 0) = OPCODE_BINARY
  · simp only [if_pos hbin] at hcuts ⊢
    exact awsOnData_follows (s := s₂) hc rfl heof hstate hbuffer hcuts
  simp only [if_neg hbin] at hcuts ⊢
  by_cases hclose : frameGetOpcode (byteAt s.header 0) = OPCODE_CLOSE
  · simp only [if_pos hclose]
    exact awsOnClose_follows (s := s₂) hc rfl heof
  simp only [if_neg hclose] at hcuts ⊢
  by_cases hping : frameGetOpcode (byteAt s.header 0) = OPCODE_PING
  · simp only [if_pos hping] at hcuts ⊢
    exact drop_follows (s := s₂) _ hc rfl hstate hbuffer hcuts (.inl rfl)
  simp only [if_neg hping] at hcuts ⊢
  by_cases hpong : frameGetOpcode (byteAt s.header 0) = OPCODE_PONG
  · simp only [if_pos hpong] at hcuts ⊢
    have hdrop := drop_follows (s := s₂) [] hc rfl hstate hbuffer hcuts (.inl rfl)
    rw [tell_nil] at hdrop
    exact hdrop
  · simp only [if_neg hpong]
    exact unknown_follows (s := s₂) hc rfl hstate hbuffer

/-- A call that follows the decoder and goes forward while bytes remain. -/
def Advances (e : Env) (s : Conn) (d : Decoder) (t : Conn) : Prop :=
  ∃ x, Reads s.avail s.later x t.avail t.later ∧
    (s.stream ≠ [] → x ≠ [] ∨ t.later.length < s.later.length) ∧
    t.eof = s.eof ∧ t.events = s.events ++ (run (feed e) d x).2 ∧
    (Rel e t (run (feed e) d x).1 ∨ (t.stream = [] ∧ NotErring (run (feed e) d x).1))

private theorem advances_after {u : Conn} {x : Bytes} (hx : x ≠ [])
    (hreads : Reads s.avail s.later x u.avail u.later) (heof : u.eof = s.eof)
    (hevents : u.events = s.events)
    (hf : Follows e u (run (feed e) d x).1 (run (feed e) d x).2 t) : Advances e s d t := by
  obtain ⟨y, hreads', heof', hevents', hrel⟩ := hf
  refine ⟨x ++ y, hreads.trans hreads', fun _ => .inl (by simp [hx]), heof'.trans heof, ?_, ?_⟩
  · rw [run_append, hevents', hevents]
  · rwa [run_append]

private theorem Advances.follows (h : Advances e s d t) : Follows e s d [] t := by
  obtain ⟨x, hreads, -, heof, hevents, hrel⟩ := h
  exact ⟨x, hreads, heof, hevents, hrel⟩

/-- A read of the heading has bytes, or waits for the next chunk if any. -/
theorem readHeader_cases (hlt : s.header.length < s.szhead) (heof : s.eof = false) :
    (∃ x a, x ≠ [] ∧ (s.header ++ x).length ≤ s.szhead ∧ Reads s.avail s.later x a s.later ∧
      readHeader s = (.data x, { s with header := s.header ++ x, avail := a })) ∨
    ∃ a l, Reads s.avail s.later [] a l ∧ (s.stream ≠ [] → l.length < s.later.length) ∧
      readHeader s = (.again, { s with avail := a, later := l }) := by
  by_cases ha : s.avail = []
  · cases hl : s.later with
    | nil =>
      refine .inr ⟨s.avail, s.later, ?_, fun hne => ?_, ?_⟩
      · rw [hl]
        exact .none _ _
      · exact absurd (by rw [Conn.stream, ha, hl]; rfl) hne
      · have hread : awsReadv (s.szhead - s.header.length) s = (.again, s) := by
          rw [awsReadv, if_pos ha, hl, heof]
          rfl
        rw [readHeader, if_pos hlt, hread]
    | cons c cs =>
      refine .inr ⟨c, cs, ha ▸ .next c (.none c cs), fun _ => Nat.lt_succ_self _, ?_⟩
      rw [readHeader, if_pos hlt, awsReadv, if_pos ha, hl]
  · refine .inl ⟨s.avail.take (s.szhead - s.header.length), s.avail.drop _, ?_, ?_, .take _ _ _, ?_⟩
    · rw [Ne, List.take_eq_nil_iff]
      exact not_or.mpr ⟨by omega, ha⟩
    · rw [List.length_append, List.length_take]
      omega
    · rw [readHeader, if_pos hlt, awsReadv, if_neg ha]

private theorem advances_again (hreads : Reads s.avail s.later [] t.avail t.later)
    (hnext : s.stream ≠ [] → t.later.length < s.later.length) (heof : t.eof = s.eof)
    (hevents : t.events = s.events) (hrel : Rel e t d) : Advances e s d t := by
  refine ⟨[], hreads, fun hne => .inr (hnext hne), heof, ?_, .inl hrel⟩
  rw [hevents, run_nil, List.append_nil]

private theorem advances_heading {h x : Bytes} (hd : d.phase = .heading h) (hx : x ≠ [])
    (hpart : (h ++ x).length < need (h ++ x)) (hreads : Reads s.avail s.later x t.avail t.later)
    (heof : t.eof = s.eof) (hevents : t.events = s.events)
    (hrel : Rel e t { d with phase := .heading (h ++ x) }) : Advances e s d t := by
  refine ⟨x, hreads, fun _ => .inl hx, heof, ?_, .inl ?_⟩
  · rw [run_heading hd hpart, hevents, List.append_nil]
  · rwa [run_heading hd hpart]

section
variable (hc : s.connected = true) (heof : s.eof = false) (hstate : s.state = d.state)
  (hbuffer : s.buffer = d.buffer)
include hc heof hstate hbuffer

/-- STATE_LENGTH with a part of the heading. -/
theorem dispatchLength_advances (hd : d.phase = .heading s.header)
    (hws : s.wsState = .length) (hsz : s.szhead = headingSize s.header) (htwo : 2 ≤ s.header.length)
    (hlt : s.header.length < s.szhead) (hok : startRefused s.header = false)
    (hcuts : AtCuts (feed e) NotDropping d s.avail s.later) :
    (dispatchLength e s).1 = false ∧ Advances e s d (dispatchLength e s).2 := by
  rw [dispatchLength]
  rcases readHeader_cases hlt heof with ⟨x, a, hx, hle, hreads, hread⟩ | ⟨a, l, hreads, hnext, hread⟩
  · rw [hread]
    dsimp only
    have hsize : headingSize (s.header ++ x) = s.szhead := by rw [headingSize_append htwo, hsz]
    have hrefused : startRefused (s.header ++ x) = false := by rwa [startRefused_append htwo]
    have hneed : need (s.header ++ x) = s.szhead := by
      have hlen : ¬ (s.header ++ x).length < 2 := by
        rw [List.length_append]
        omega
      rw [need, if_neg hlen, hrefused, if_neg Bool.false_ne_true, hsize]
    by_cases hpart : (s.header ++ x).length < s.szhead
    · rw [if_pos hpart]
      refine ⟨rfl, advances_heading hd hx (by rwa [hneed]) hreads rfl rfl ?_⟩
      exact ⟨hc, hstate, hbuffer, .inr (.inr ⟨hws, rfl, hsize.symm, by rw [List.length_append]; omega,
        by rwa [hsize], hrefused⟩)⟩
    · rw [if_neg hpart]
      have hrun : run (feed e) d x = frame e (s.header ++ x) d := by
        rw [run_complete hd hx (by omega), complete, hrefused, if_neg Bool.false_ne_true]
      have hcuts' := hcuts.reads hreads
      rw [hrun] at hcuts'
      refine ⟨rfl, advances_after (u := { s with header := s.header ++ x, avail := a }) hx hreads rfl rfl ?_⟩
      rw [hrun]
      exact dispatchFrame_follows (s := { s with header := s.header ++ x, avail := a }) hc hws
        hsize.symm (by dsimp only; omega) heof hstate hbuffer hcuts'
  · rw [hread]
    refine ⟨rfl, advances_again hreads hnext rfl rfl ?_⟩
    unfold Rel
    rw [hd]
    exact ⟨hc, hstate, hbuffer, .inr (.inr ⟨hws, rfl, hsz, htwo, hsz ▸ hlt, hok⟩)⟩

/-- STATE_START with less than two bytes. -/
theorem dispatchStart_advances (hd : d.phase = .heading s.header)
    (hws : s.wsState = .start) (hsz : s.szhead = 2) (hlt : s.header.length < 2)
    (hcuts : AtCuts (feed e) NotDropping d s.avail s.later) :
    (dispatchStart e s).1 = false ∧ Advances e s d (dispatchStart e s).2 := by
  rw [dispatchStart]
  rcases readHeader_cases (by omega) heof with ⟨x, a, hx, hle, hreads, hread⟩ | ⟨a, l, hreads, hnext, hread⟩
  · rw [hread]
    dsimp only
    by_cases hpart : (s.header ++ x).length < s.szhead
    · have hneed : need (s.header ++ x) = 2 := if_pos (by omega)
      rw [if_pos hpart]
      refine ⟨rfl, advances_heading hd hx (by omega) hreads rfl rfl ?_⟩
      exact ⟨hc, hstate, hbuffer, .inr (.inl ⟨hws, rfl, hsz, by omega⟩)⟩
    rw [if_neg hpart]
    have htwo : (s.header ++ x).length = 2 := by omega
    have hcuts' := hcuts.reads hreads
    cases hrefused : startRefused (s.header ++ x) with
    | true =>
      have hneed : need (s.header ++ x) = 2 := by
        rw [need, if_neg (by omega), if_pos hrefused]
      have hrun : run (feed e) d x = fail e WEBSOCKET_CODE_PROTOCOL_ERROR
          { d with phase := .erring WEBSOCKET_CODE_PROTOCOL_ERROR false } := by
        rw [run_complete hd hx (by omega), complete, if_pos hrefused]
      rw [if_pos rfl]
      refine ⟨rfl, advances_after (u := { s with header := s.header ++ x, avail := a }) hx hreads
        rfl rfl ?_⟩
      rw [hrun]
      exact websockError_follows (s := { s with header := s.header ++ x, avail := a }) hc
        fun he _ => ⟨hc, rfl, he, .inl ⟨hws, hsz, htwo, hrefused, rfl⟩⟩
    | false =>
      rw [if_neg Bool.false_ne_true]
      have hneed : need (s.header ++ x) = headingSize (s.header ++ x) := by
        rw [need, if_neg (by omega), if_neg (by rw [hrefused]; exact Bool.false_ne_true)]
      have hmin : 2 ≤ headingSize (s.header ++ x) := by
        unfold headingSize
        dsimp only
        omega
      let s' : Conn := { s with
        header := s.header ++ x
        avail := a
        szhead := headingSize (s.header ++ x)
        wsState := .length }
      by_cases hmore : 2 < headingSize (s.header ++ x)
      · -- the heading goes on
        have hrun : run (feed e) d x = ({ d with phase := .heading (s.header ++ x) }, []) :=
          run_heading hd (by omega)
        rw [hrun] at hcuts'
        obtain ⟨hrc, hadv⟩ := dispatchLength_advances (s := s')
          (d := { d with phase := .heading (s.header ++ x) }) hc heof hstate hbuffer rfl rfl rfl
          (Nat.le_of_eq htwo.symm) (by dsimp only [s']; omega) hrefused hcuts'
        refine ⟨hrc, advances_after (u := s') hx hreads rfl rfl ?_⟩
        rw [hrun]
        exact hadv.follows
      · have hfull : (s.header ++ x).length = headingSize (s.header ++ x) := by omega
        have hrun : run (feed e) d x = frame e (s.header ++ x) d := by
          rw [run_complete hd hx (by omega), complete, hrefused, if_neg Bool.false_ne_true]
        rw [hrun] at hcuts'
        have hframe : dispatchLength e s' = (false, dispatchFrame e s') := by
          rw [dispatchLength, readHeader, if_neg (by dsimp only [s']; omega)]
          dsimp only
          rw [if_neg (by dsimp only [s']; omega)]
        rw [hframe]
        refine ⟨rfl, advances_after (u := s') hx hreads rfl rfl ?_⟩
        rw [hrun]
        exact dispatchFrame_follows (s := s') hc rfl rfl hfull heof hstate hbuffer hcuts'
  · rw [hread]
    refine ⟨rfl, advances_again hreads hnext rfl rfl ?_⟩
    unfold Rel
    rw [hd]
    exact ⟨hc, hstate, hbuffer, .inr (.inl ⟨hws, rfl, hsz, hlt⟩)⟩

/-- A call in the middle of the headings. -/
theorem awsOnReadable_advances {h : Bytes} (hd : d.phase = .heading h) (hh : InHeading s h)
    (hcuts : AtCuts (feed e) NotDropping d s.avail s.later) : Advances e s d (awsOnReadable e s) := by
  have hdispatch : (websockDispatch e s).1 = false ∧ Advances e s d (websockDispatch e s).2 := by
    have hinit (hd : d.phase = .heading []) :
        (dispatchInit e s).1 = false ∧ Advances e s d (dispatchInit e s).2 :=
      dispatchStart_advances (s := { s with header := [], szhead := 2, wsState := .start }) hc heof
        hstate hbuffer hd rfl rfl (Nat.zero_lt_succ 1) hcuts
    unfold websockDispatch
    rcases hh with ⟨rfl, hws | ⟨hws, hlen⟩⟩ | ⟨hws, rfl, hsz, hlt⟩ | ⟨hws, rfl, hsz, htwo, hlt, hok⟩
    · rw [hws]
      exact hinit hd
    · rw [hws]
      dsimp only
      rw [if_neg (not_not.mpr hlen)]
      exact hinit hd
    · rw [hws]
      exact dispatchStart_advances hc heof hstate hbuffer hd hws hsz hlt hcuts
    · rw [hws]
      exact dispatchLength_advances hc heof hstate hbuffer hd hws hsz htwo (hsz ▸ hlt) hok hcuts
  obtain ⟨hrc, hadv⟩ := hdispatch
  unfold awsOnReadable
  generalize websockDispatch e s = r at hrc hadv
  obtain ⟨rc, t⟩ := r
  cases hrc
  exact hadv

end

private theorem awsOnReadable_stuck (hws : s.wsState = .data) (hlen : s.length ≠ 0) :
    awsOnReadable e s = s := by
  rw [awsOnReadable, websockDispatch, hws]
  dsimp only
  rw [if_pos hlen]

/-- The same error again. -/
theorem awsOnReadable_repeats {code : Nat} (hr : Repeats e s code) :
    awsOnReadable e s = s.tell (errorEvents e code) := by
  obtain ⟨he, ⟨hws, hsz, hlen, hrefused, rfl⟩ | ⟨hws, hfull, hlen, hlong, rfl⟩⟩ := hr
  · have hread : readHeader s = (.data [], s) := if_neg (by omega)
    have hstart : dispatchStart e s = (false, s.tell (errorEvents e WEBSOCKET_CODE_PROTOCOL_ERROR)) := by
      rw [dispatchStart, hread]
      dsimp only
      rw [if_neg (by omega), if_pos hrefused, websockError_handled he]
    rw [awsOnReadable, websockDispatch, hws]
    dsimp only
    rw [hstart]
  · have hread : readHeader s = (.data [], s) := if_neg (by omega)
    have hframe : dispatchFrame e s = s.tell (errorEvents e WEBSOCKET_CODE_MESSAGE_TOO_LARGE) := by
      rw [dispatchFrame]
      dsimp only
      rw [← hlen, if_pos hlong]
      exact websockError_handled he _
    have hlength : dispatchLength e s =
        (false, s.tell (errorEvents e WEBSOCKET_CODE_MESSAGE_TOO_LARGE)) := by
      rw [dispatchLength, hread]
      dsimp only
      rw [if_neg (by omega), hframe]
    rw [awsOnReadable, websockDispatch, hws]
    dsimp only
    rw [hlength]

private theorem calls_stopped (h : ¬ (s.connected = true ∧ s.stream ≠ [])) (n : Nat) : calls e n s = s := by
  cases n with
  | zero => rfl
  | succ n => rw [calls, if_neg h]

theorem calls_add (m n : Nat) : calls e (m + n) s = calls e n (calls e m s) := by
  induction m generalizing s with
  | zero => rw [Nat.zero_add]; rfl
  | succ m ih =>
    rw [Nat.add_right_comm, calls, calls]
    split
    · exact ih
    · rename_i h
      exact (calls_stopped h n).symm

/-- What more calls tell once the decoder has been fed with the whole stream. -/
def tail (e : Env) (d : Decoder) (n : Nat) : List Event :=
  match d.phase with
  | .erring code true => (List.replicate n (errorEvents e code)).flatten
  | _ => []

/-- The state is settled: further calls only tell the tail. -/
def Settled (e : Env) (s : Conn) (d : Decoder) : Prop :=
  ∀ n, (calls e n s).events = s.events ++ tail e d n

private theorem tail_nil (h : NotErring d) (n : Nat) : tail e d n = [] := by
  unfold tail
  split
  · rename_i code hp
    exact absurd hp (h code true)
  · rfl

private theorem settled_stopped (h : ¬ (s.connected = true ∧ s.stream ≠ []))
    (ht : ∀ n, tail e d n = []) : Settled e s d := by
  intro n
  rw [calls_stopped h, ht n, List.append_nil]

private theorem settled_stuck (hws : s.wsState = .data) (hlen : s.length ≠ 0)
    (ht : ∀ n, tail e d n = []) : Settled e s d := by
  intro n
  rw [ht n, List.append_nil]
  induction n with
  | zero => rfl
  | succ n ih =>
    rw [calls]
    split
    · rwa [awsOnReadable_stuck hws hlen]
    · rfl

private theorem calls_repeats {code : Nat} (hc : s.connected = true) (hr : Repeats e s code)
    (hne : s.stream ≠ []) (n : Nat) :
    (calls e n s).events = s.events ++ (List.replicate n (errorEvents e code)).flatten := by
  induction n generalizing s with
  | zero => rw [List.replicate_zero, List.flatten_nil, List.append_nil]; rfl
  | succ n ih =>
    rw [calls, if_pos ⟨hc, hne⟩, awsOnReadable_repeats hr,
      ih (s := s.tell (errorEvents e code)) hc hr hne, List.replicate_succ,
      List.flatten_cons, ← List.append_assoc]
    rfl

private theorem settled_erring {code : Nat} (hp : d.phase = .erring code false)
    (hc : s.connected = true) (hr : Repeats e s code) :
    (run (feed e) d s.stream).2 = [] ∧ Settled e s (run (feed e) d s.stream).1 := by
  cases hs : s.stream with
  | nil =>
    refine ⟨rfl, settled_stopped (by simp [hs]) fun n => ?_⟩
    rw [run_nil, tail, hp]
  | cons b rest =>
    have hfeed : feed e d b = ({ d with phase := .erring code true }, []) := by rw [feed, hp]
    have hrun : run (feed e) d (b :: rest) = ({ d with phase := .erring code true }, []) := by
      rw [run_cons, hfeed, run_fixed fun _ => rfl]
      rfl
    rw [hrun]
    exact ⟨rfl, fun n => calls_repeats hc hr (by simp [hs]) n⟩

/-- After enough calls the code told what the decoder tells of the whole stream. -/
theorem calls_settle (hrel : Rel e s d) (heof : s.eof = false)
    (hcuts : AtCuts (feed e) NotDropping d s.avail s.later) :
    ∃ n, (calls e n s).events = s.events ++ (run (feed e) d s.stream).2 ∧
      Settled e (calls e n s) (run (feed e) d s.stream).1 := by
  -- each call that leaves the decoder in a heading takes bytes or a chunk
  induction hm : s.later.length + s.stream.length using Nat.strongRecOn generalizing s d with
  | ind k ih =>
  have hrel₀ := hrel
  unfold Rel at hrel
  cases hp : d.phase with
  | ended =>
    rw [hp] at hrel
    refine ⟨0, ?_⟩
    rw [run_ended hp]
    refine ⟨(List.append_nil _).symm, settled_stopped (by simp [calls, hrel]) fun n => ?_⟩
    rw [tail, hp]
  | stuck =>
    rw [hp] at hrel
    refine ⟨0, ?_⟩
    rw [run_fixed fun b => by rw [feed, hp]]
    refine ⟨(List.append_nil _).symm, settled_stuck hrel.2.1 hrel.2.2 fun n => ?_⟩
    rw [tail, hp]
  | erring code more =>
    rw [hp] at hrel
    obtain ⟨hc, rfl, hr⟩ := hrel
    obtain ⟨hevents, hsettled⟩ := settled_erring (s := s) hp hc hr
    exact ⟨0, by rw [hevents, List.append_nil]; rfl, hsettled⟩
  | payload purpose left mask =>
    rw [hp] at hrel
    exact hrel.elim
  | dropping left =>
    rw [hp] at hrel
    exact hrel.elim
  | heading h =>
    rw [hp] at hrel
    obtain ⟨hc, hstate, hbuffer, hh⟩ := hrel
    by_cases hne : s.stream = []
    · refine ⟨0, ?_⟩
      rw [hne]
      refine ⟨(List.append_nil _).symm, settled_stopped (by simp [calls, hne]) fun n => ?_⟩
      rw [run_nil, tail, hp]
    obtain ⟨x, hreads, hprogress, heof', hevents, hend⟩ :=
      awsOnReadable_advances hc heof hstate hbuffer hp hh hcuts
    have hstream : s.stream = x ++ (awsOnReadable e s).stream := hreads.append
    have hcall (n : Nat) : calls e (n + 1) s = calls e n (awsOnReadable e s) := by
      rw [calls, if_pos ⟨hc, hne⟩]
    rcases hend with hrel' | ⟨hend, herr⟩
    · have hlater := hreads.length_le
      have hlength : s.stream.length = x.length + (awsOnReadable e s).stream.length := by
        rw [hstream, List.length_append]
      have hless : (awsOnReadable e s).later.length + (awsOnReadable e s).stream.length < k := by
        rcases hprogress hne with hx | hless
        · have := List.length_pos_iff.mpr hx
          omega
        · omega
      obtain ⟨n, htold, hsettled⟩ := ih _ hless hrel' (heof'.trans heof) (hcuts.reads hreads) rfl
      refine ⟨n + 1, ?_⟩
      rw [hcall, hstream, run_append, htold, hevents, List.append_assoc]
      exact ⟨rfl, hsettled⟩
    · rw [hend, List.append_nil] at hstream
      refine ⟨1, ?_⟩
      rw [hcall, hstream]
      refine ⟨hevents, settled_stopped (by simp [calls, hend]) (tail_nil herr)⟩

end

/-- From some calls on, the events of both connections are the same after each call. -/
def SameEvents (e : Env) (s t : Conn) : Prop :=
  ∃ i j, ∀ n, (calls e (i + n) s).events = (calls e (j + n) t).events

/-- No cut that bytes follow is in a payload that is dropped while the connection goes on:
the payload of a ping, of a pong, or of a refused frame when the interface handles errors. -/
def CutsClear (e : Env) (avail : Bytes) (later : List Bytes) : Prop :=
  AtCuts (feed e) NotDropping Decoder.start avail later

/-- A stream cut outside of the payloads that are dropped is decoded as when it is available
at once. -/
theorem chunks_decoded_alike (e : Env) (avail : Bytes) (later : List Bytes)
    (hcuts : CutsClear e avail later) :
    SameEvents e (.start avail later false) (.start (avail ++ later.flatten) [] false) := by
  have hrel (avail : Bytes) (later : List Bytes) : Rel e (.start avail later false) .start :=
    ⟨rfl, rfl, rfl, .inl ⟨rfl, .inl rfl⟩⟩
  obtain ⟨i, htold, hsettled⟩ := calls_settle (hrel avail later) rfl hcuts
  obtain ⟨j, htold', hsettled'⟩ := calls_settle (hrel (avail ++ later.flatten) []) rfl trivial
  have hstream : (Conn.start (avail ++ later.flatten) [] false).stream =
      (Conn.start avail later false).stream := by
    simp [Conn.stream, Conn.start]
  rw [hstream] at htold' hsettled'
  refine ⟨i, j, fun n => ?_⟩
  rw [calls_add, calls_add, hsettled n, hsettled' n, htold, htold']
  rfl

/-- An interface with on_text and on_binary. -/
private def sampleEnv : Env := ⟨false, true, true, false, true, 1048500, 0, 0⟩

/-- A ping with two bytes, then the text A. -/
private def samplePing : Bytes := [0x89, 2, 0x81, 1, 0x81, 1, 0x41]

/-- A masked text in two fragments, cut in the headings and in the payloads, a whole ping. -/
private def sampleChunks : List Bytes :=
  [[0x01], [0x82, 1, 2], [3, 4, 0x40], [0x40, 0x89, 1, 7, 0x80, 1], [0x43]]

theorem chunks_decoded_alike_sample :
    CutsClear sampleEnv [] sampleChunks ∧
      (calls sampleEnv 20 (.start [] sampleChunks false)).events =
        [.sent [0x8A, 0], .onText [0x41, 0x42, 0x43]] ∧
      SameEvents sampleEnv (.start [] sampleChunks false) (.start sampleChunks.flatten [] false) := by
  have hcuts : CutsClear sampleEnv [] sampleChunks := by
    unfold CutsClear
    decide
  exact ⟨hcuts, by decide, chunks_decoded_alike sampleEnv [] sampleChunks hcuts⟩

/-- Cut before its payload, the ping is answered but its payload is taken for a frame. -/
theorem ping_cut_decoded_otherwise :
    ¬ SameEvents sampleEnv (.start [] [samplePing.take 2, samplePing.drop 2] false)
      (.start samplePing [] false) := by
  rintro ⟨i, j, h⟩
  have hcut : calls sampleEnv (i + 5) (.start [] [samplePing.take 2, samplePing.drop 2] false) =
      calls sampleEnv 5 (.start [] [samplePing.take 2, samplePing.drop 2] false) := by
    rw [Nat.add_comm, calls_add]
    exact calls_stopped (by decide) i
  have hwhole : calls sampleEnv (j + 5) (.start samplePing [] false) =
      calls sampleEnv 5 (.start samplePing [] false) := by
    rw [Nat.add_comm, calls_add]
    exact calls_stopped (by decide) j
  have h := h 5
  rw [hcut, hwhole] at h
  exact absurd h (by decide)

end AfbBinder.Websock
