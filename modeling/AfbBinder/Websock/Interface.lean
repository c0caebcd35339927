import AfbBinder.Lib.Lists
import AfbBinder.Websock.Chunked

/-! websock.c alone: websock_dispatch over any interface. The callbacks work on the websock,
with its socket, and on a closure of their own. The interfaces of the program have neither
on_extension, nor on_ping, nor on_pong. -/
namespace AfbBinder.Websock
open Lib.Cstrings Decoder
variable {γ : Type}

structure Itf (γ : Type) where
  onContinue : Bool → Nat → Conn × γ → Conn × γ
  onText : Bool → Nat → Conn × γ → Conn × γ
  onBinary : Bool → Nat → Conn × γ → Conn × γ
  onClose : Nat → Nat → Conn × γ → Conn × γ
  onError : Nat → Conn × γ → Conn × γ

/-- What websock_dispatch does of a complete heading. -/
inductive Call where
  | onContinue (last : Bool) (size : Nat)
  | onText (last : Bool) (size : Nat)
  | onBinary (last : Bool) (size : Nat)
  | onClose (code size : Nat)
  | ping
  | pong
  | error (code : Nat)
  deriving DecidableEq, Repr

def frameCall (e : Env) (header : Bytes) (szhead : Nat) : Call :=
  let length := headingLength header
  let opcode := frameGetOpcode (byteAt header 0)
  let last := frameGetFin (byteAt header 0)
  if length > e.maxlength then .error WEBSOCKET_CODE_MESSAGE_TOO_LARGE
  else if !rsvClear header then .error WEBSOCKET_CODE_PROTOCOL_ERROR
  else if opcode = OPCODE_CONTINUATION then .onContinue last length
  else if opcode = OPCODE_TEXT then .onText last length
  else if opcode = OPCODE_BINARY then .onBinary last length
  else if opcode = OPCODE_CLOSE then .onClose (closeCode header szhead length) length
  else if opcode = OPCODE_PING then .ping
  else if opcode = OPCODE_PONG then .pong
  else .error WEBSOCKET_CODE_PROTOCOL_ERROR

/-- The fields computed from the heading: a frame too long stops before its mask. -/
def Conn.decoded (e : Env) (s : Conn) : Conn :=
  let length := headingLength s.header
  if length > e.maxlength then { s with length := length }
  else { s with length := length, mask := headingMask s.header s.szhead, wsState := .data }

def websockErrorWith (itf : Itf γ) (code : Nat) (p : Conn × γ) : Conn × γ :=
  itf.onError code (p.1.tell (websockClose code []), p.2)

def Itf.call (e : Env) (itf : Itf γ) : Call → Conn × γ → Conn × γ
  | .onContinue last size, p => itf.onContinue last size p
  | .onText last size, p => itf.onText last size p
  | .onBinary last size, p => itf.onBinary last size p
  | .onClose code size, p => itf.onClose code size p
  | .ping, p => ({ (websockDrop e p.1).tell (websockPong []) with wsState := .init }, p.2)
  | .pong, p => ({ websockDrop e p.1 with wsState := .init }, p.2)
  | .error code, p => websockErrorWith itf code p

section
variable (e : Env) (itf : Itf γ)

def dispatchFrameWith (p : Conn × γ) : Conn × γ :=
  itf.call e (frameCall e p.1.header p.1.szhead) (p.1.decoded e, p.2)

def dispatchLengthWith (p : Conn × γ) : Bool × Conn × γ :=
  match readHeader p.1 with
  | (.again, s) => (false, s, p.2)
  | (.closed, s) => (true, s, p.2)
  | (.data _, s) =>
    (false, if s.header.length < s.szhead then (s, p.2) else dispatchFrameWith e itf (s, p.2))

def dispatchStartWith (p : Conn × γ) : Bool × Conn × γ :=
  match readHeader p.1 with
  | (.again, s) => (false, s, p.2)
  | (.closed, s) => (true, s, p.2)
  | (.data _, s) =>
    if s.header.length < s.szhead then (false, s, p.2)
    else if startRefused s.header then
      (false, websockErrorWith itf WEBSOCKET_CODE_PROTOCOL_ERROR (s, p.2))
    else dispatchLengthWith e itf ({ s with szhead := headingSize s.header, wsState := .length }, p.2)

def dispatchInitWith (p : Conn × γ) : Bool × Conn × γ :=
  dispatchStartWith e itf ({ p.1 with header := [], szhead := 2, wsState := .start }, p.2)

def websockDispatchWith (p : Conn × γ) : Bool × Conn × γ :=
  match p.1.wsState with
  | .init => dispatchInitWith e itf p
  | .start => dispatchStartWith e itf p
  | .length => dispatchLengthWith e itf p
  | .data => if p.1.length ≠ 0 then (false, p) else dispatchInitWith e itf p

/-- Calls of websock_dispatch one after the other. -/
def dispatches : Nat → Conn × γ → Conn × γ
  | 0, p => p
  | n + 1, p => dispatches n (websockDispatchWith e itf p).2

end

/-! The interface of afb_ws is one of them. -/

def awsItf (e : Env) : Itf γ where
  onContinue last size p := (awsOnContinue e last size p.1, p.2)
  onText last size p := (awsOnText e last size p.1, p.2)
  onBinary last size p := (awsOnBinary e last size p.1, p.2)
  onClose code size p := (awsOnClose e code size p.1, p.2)
  onError code p := (awsOnError e code p.1, p.2)

section
variable {e : Env} {s : Conn} {g : γ}

private theorem dispatchFrame_aws :
    dispatchFrameWith e (awsItf e) (s, g) = (dispatchFrame e s, g) := by
  unfold dispatchFrameWith frameCall dispatchFrame Conn.decoded
  dsimp only
  by_cases hlong : headingLength s.header > e.maxlength
  · simp only [if_pos hlong]
    rfl
  simp only [if_neg hlong]
  split_ifs <;> rfl

private theorem dispatchLength_aws : dispatchLengthWith e (awsItf e) (s, g) =
    ((dispatchLength e s).1, (dispatchLength e s).2, g) := by
  unfold dispatchLengthWith dispatchLength
  dsimp only
  cases readHeader s with
  | mk rc t =>
    cases rc with
    | again => rfl
    | closed => rfl
    | data b =>
      dsimp only
      split
      · rfl
      · rw [dispatchFrame_aws]

private theorem dispatchStart_aws : dispatchStartWith e (awsItf e) (s, g) =
    ((dispatchStart e s).1, (dispatchStart e s).2, g) := by
  unfold dispatchStartWith dispatchStart
  dsimp only
  cases readHeader s with
  | mk rc t =>
    cases rc with
    | again => rfl
    | closed => rfl
    | data b =>
      dsimp only
      split
      · rfl
      · split
        · rfl
        · rw [dispatchLength_aws]

/-- With the interface of afb_ws websock_dispatch is the one of the connections. -/
theorem websockDispatch_aws : websockDispatchWith e (awsItf e) (s, g) =
    ((websockDispatch e s).1, (websockDispatch e s).2, g) := by
  unfold websockDispatchWith websockDispatch dispatchInitWith dispatchInit
  cases s.wsState with
  | init => exact dispatchStart_aws
  | start => exact dispatchStart_aws
  | length => exact dispatchLength_aws
  | data =>
    dsimp only
    split
    · rfl
    · exact dispatchStart_aws

end

/-! Reading a heading, whatever the chunks. -/

/-- The connection with a heading read so far and other bytes in its socket. -/
def Conn.reading (s : Conn) (h : Bytes) (szhead : Nat) (w : WsState) (a : Bytes)
    (l : List Bytes) : Conn :=
  { s with header := h, szhead := szhead, wsState := w, avail := a, later := l }

/-- The connection once the heading is read. -/
def Conn.headed (s : Conn) (h a : Bytes) (l : List Bytes) : Conn :=
  s.reading h (headingSize h) .length a l

/-- Between two frames. -/
def Conn.Ready (s : Conn) : Prop := s.wsState = .init ∨ (s.wsState = .data ∧ s.length = 0)

section
variable {e : Env} {itf : Itf γ} {s : Conn} {g : γ} {h x rest : Bytes}

/-- A read of the heading takes bytes of it, or waits for the next chunk. -/
theorem readHeader_stream (hlt : s.header.length < s.szhead) (hstream : s.stream = x ++ rest)
    (hx : s.szhead ≤ s.header.length + x.length) :
    (∃ y z a, y ≠ [] ∧ x = y ++ z ∧ (s.header ++ y).length ≤ s.szhead ∧
      a ++ s.later.flatten = z ++ rest ∧
      readHeader s = (.data y, { s with header := s.header ++ y, avail := a })) ∨
    ∃ c cs, s.avail = [] ∧ s.later = c :: cs ∧
      readHeader s = (.again, { s with avail := c, later := cs }) := by
  by_cases ha : s.avail = []
  · cases hl : s.later with
    | nil =>
      have hnil : x ++ rest = [] := by rw [← hstream, Conn.stream, ha, hl]; rfl
      have hlen : (x ++ rest).length = 0 := by rw [hnil]; rfl
      rw [List.length_append] at hlen
      omega
    | cons c cs =>
      refine .inr ⟨c, cs, ha, rfl, ?_⟩
      rw [readHeader, if_pos hlt, awsReadv, if_pos ha, hl]
  · have hlen : (s.avail.take (s.szhead - s.header.length)).length ≤ x.length := by
      rw [List.length_take]
      omega
    obtain ⟨z, hx', hz⟩ := Lib.Lists.split_take _ hstream hlen
    refine .inl ⟨_, z, s.avail.drop (s.szhead - s.header.length), ?_, hx', ?_, hz, ?_⟩
    · rw [Ne, List.take_eq_nil_iff]
      exact not_or.mpr ⟨by omega, ha⟩
    · rw [List.length_append, List.length_take]
      omega
    · rw [readHeader, if_pos hlt, awsReadv, if_neg ha]

/-- A call that goes on with a heading: it is complete and its frame is dispatched, or the
call returns with less to read. -/
def Reaches (e : Env) (itf : Itf γ) (s : Conn) (g : γ) (h x rest : Bytes) (r : Bool × Conn × γ) :
    Prop :=
  (∃ a l, a ++ l.flatten = rest ∧ r = (false, dispatchFrameWith e itf (s.headed (h ++ x) a l, g))) ∨
  ∃ h' x' szhead w a l, h' ++ x' = h ++ x ∧ x' ≠ [] ∧ InHeading (s.reading h' szhead w a l) h' ∧
    a ++ l.flatten = x' ++ rest ∧ l.length + x'.length < s.later.length + x.length ∧
    r = (false, s.reading h' szhead w a l, g)

variable (itf) in
private theorem dispatchLength_reaches (hws : s.wsState = .length) (hheader : s.header = h)
    (hsz : s.szhead = headingSize h) (htwo : 2 ≤ h.length) (hstream : s.stream = x ++ rest)
    (hfull : (h ++ x).length = headingSize h) (hok : startRefused h = false) :
    Reaches e itf s g h x rest (dispatchLengthWith e itf (s, g)) := by
  have hsize (y : Bytes) : headingSize (h ++ y) = headingSize h := headingSize_append htwo
  have hlen : (h ++ x).length = h.length + x.length := List.length_append
  unfold dispatchLengthWith
  dsimp only
  by_cases hlt : s.header.length < s.szhead
  · rcases readHeader_stream hlt hstream (by rw [hheader]; omega) with
      ⟨y, z, a, hy, rfl, hle, hrest, hread⟩ | ⟨c, cs, ha, hl, hread⟩
    · rw [hread]
      dsimp only
      rw [hheader] at hle ⊢
      have hpos := List.length_pos_iff.mpr hy
      rw [List.length_append] at hle
      simp only [List.length_append] at hlen hfull
      by_cases hpart : (h ++ y).length < s.szhead
      · rw [if_pos hpart]
        rw [List.length_append] at hpart
        refine .inr ⟨h ++ y, z, s.szhead, s.wsState, a, s.later, ?_, ?_, .inr (.inr ⟨hws, rfl, ?_, ?_,
          ?_, ?_⟩), hrest, ?_, rfl⟩
        · rw [List.append_assoc]
        · rintro rfl
          simp only [List.length_nil] at hfull
          omega
        · rw [hsize]
          exact hsz
        · rw [List.length_append]
          omega
        · rw [hsize, List.length_append]
          omega
        · rwa [startRefused_append htwo]
        · rw [List.length_append]
          omega
      · rw [if_neg hpart]
        rw [List.length_append] at hpart
        have hz : z = [] := List.length_eq_zero_iff.mp (by omega)
        subst hz
        refine .inl ⟨a, s.later, hrest, ?_⟩
        simp only [Conn.headed, Conn.reading, List.append_nil, hsize, ← hsz, ← hws]
    · rw [hread]
      refine .inr ⟨h, x, s.szhead, s.wsState, c, cs, rfl, ?_, .inr (.inr ⟨hws, rfl, hsz, htwo, ?_, hok⟩),
        ?_, ?_, ?_⟩
      · rintro rfl
        rw [hheader] at hlt
        simp only [List.length_nil] at hlen
        omega
      · rw [← hsz, ← hheader]
        exact hlt
      · rw [← hstream, Conn.stream, ha, hl]
        rfl
      · rw [hl, List.length_cons]
        omega
      · rw [← hheader]
        rfl
  · have hread : readHeader s = (.data [], s) := if_neg hlt
    have hx : x = [] := List.length_eq_zero_iff.mp (by rw [hheader] at hlt; omega)
    subst hx
    rw [hread]
    dsimp only
    rw [if_neg hlt]
    refine .inl ⟨s.avail, s.later, hstream, ?_⟩
    have hs : s.headed (h ++ []) s.avail s.later = s := by
      rw [List.append_nil, Conn.headed, Conn.reading, ← hsz, ← hheader, ← hws]
    rw [hs]

private theorem dispatchStart_reaches (hws : s.wsState = .start) (hheader : s.header = h)
    (hsz : s.szhead = 2) (hlt : h.length < 2) (hstream : s.stream = x ++ rest)
    (hfull : (h ++ x).length = headingSize (h ++ x)) (hok : startRefused (h ++ x) = false) :
    Reaches e itf s g h x rest (dispatchStartWith e itf (s, g)) := by
  have hmin : 2 ≤ headingSize (h ++ x) := by
    unfold headingSize
    dsimp only
    omega
  have hlen : (h ++ x).length = h.length + x.length := List.length_append
  unfold dispatchStartWith
  dsimp only
  rcases readHeader_stream (by rw [hheader, hsz]; exact hlt) hstream (by rw [hheader]; omega) with
    ⟨y, z, a, hy, rfl, hle, hrest, hread⟩ | ⟨c, cs, ha, hl, hread⟩
  · rw [hread]
    dsimp only
    rw [hheader, hsz] at hle ⊢
    have hpos := List.length_pos_iff.mpr hy
    simp only [List.length_append] at hlen hfull hle
    by_cases hpart : (h ++ y).length < 2
    · rw [if_pos hpart]
      rw [List.length_append] at hpart
      refine .inr ⟨h ++ y, z, 2, s.wsState, a, s.later, ?_, ?_, .inr (.inl ⟨hws, rfl, rfl, ?_⟩),
        hrest, ?_, ?_⟩
      · rw [List.append_assoc]
      · rintro rfl
        simp only [List.length_nil] at hfull
        omega
      · rw [List.length_append]
        exact hpart
      · rw [List.length_append]
        omega
      · rw [← hsz]
        rfl
    · rw [if_neg hpart]
      rw [List.length_append] at hpart
      rw [← List.append_assoc] at hok hmin hfull
      have htwo : 2 ≤ (h ++ y).length := by rw [List.length_append]; omega
      have hsize : headingSize (h ++ y ++ z) = headingSize (h ++ y) := headingSize_append htwo
      rw [startRefused_append htwo] at hok
      rw [if_neg (by rw [hok]; exact Bool.false_ne_true)]
      -- the two first bytes are read: the same call goes on with the others
      have hgo := dispatchLength_reaches itf (e := e) (g := g)
        (s := s.reading (h ++ y) (headingSize (h ++ y)) .length a s.later) (h := h ++ y) (x := z)
        rfl rfl rfl htwo hrest (by simp only [List.length_append]; omega) hok
      rcases hgo with ⟨a', l', hrest', hcall⟩ | ⟨h', x', szhead, w, a', l', happ, hne, hin, hrest', hless, hcall⟩
      · refine .inl ⟨a', l', hrest', ?_⟩
        rw [← List.append_assoc]
        exact hcall
      · refine .inr ⟨h', x', szhead, w, a', l', ?_, hne, hin, hrest', ?_, hcall⟩
        · rw [happ, List.append_assoc]
        · rw [List.length_append]
          dsimp only [Conn.reading] at hless
          omega
  · rw [hread]
    refine .inr ⟨h, x, 2, s.wsState, c, cs, rfl, ?_, .inr (.inl ⟨hws, rfl, rfl, hlt⟩), ?_, ?_, ?_⟩
    · rintro rfl
      simp only [List.length_nil] at hlen
      omega
    · rw [← hstream, Conn.stream, ha, hl]
      rfl
    · rw [hl, List.length_cons]
      omega
    · rw [← hheader, ← hsz]
      rfl

variable (itf) in
private theorem dispatch_reaches (hin : InHeading s h) (hstream : s.stream = x ++ rest)
    (hfull : (h ++ x).length = headingSize (h ++ x)) (hok : startRefused (h ++ x) = false) :
    Reaches e itf s g h x rest (websockDispatchWith e itf (s, g)) := by
  have hinit (hnil : h = []) : Reaches e itf s g h x rest (dispatchInitWith e itf (s, g)) := by
    subst hnil
    exact dispatchStart_reaches (s := { s with header := [], szhead := 2, wsState := .start })
      rfl rfl rfl (Nat.zero_lt_succ 1) hstream hfull hok
  unfold websockDispatchWith
  rcases hin with ⟨hnil, hws | ⟨hws, hlen⟩⟩ | ⟨hws, hheader, hsz, hlt⟩ |
    ⟨hws, hheader, hsz, htwo, hlt, hrefused⟩
  · dsimp only
    rw [hws]
    exact hinit hnil
  · dsimp only
    rw [hws]
    dsimp only
    rw [if_neg (not_not.mpr hlen)]
    exact hinit hnil
  · dsimp only
    rw [hws]
    exact dispatchStart_reaches hws hheader hsz hlt hstream hfull hok
  · dsimp only
    rw [hws]
    rw [headingSize_append htwo] at hfull
    exact dispatchLength_reaches itf hws hheader hsz htwo hstream hfull hrefused

variable (itf) in
/-- Some calls of websock_dispatch read a heading, the last of them dispatches its frame. -/
theorem dispatches_heading (hin : InHeading s h) (hstream : s.stream = x ++ rest)
    (hfull : (h ++ x).length = headingSize (h ++ x)) (hok : startRefused (h ++ x) = false) :
    ∃ n a l, a ++ l.flatten = rest ∧
      dispatches e itf (n + 1) (s, g) = dispatchFrameWith e itf (s.headed (h ++ x) a l, g) := by
  induction hm : s.later.length + x.length using Nat.strongRecOn generalizing s h x with
  | ind k ih =>
  rcases dispatch_reaches itf (e := e) (g := g) hin hstream hfull hok with
    ⟨a, l, hrest, hcall⟩ | ⟨h', x', szhead, w, a, l, happ, -, hin', hrest, hless, hcall⟩
  · refine ⟨0, a, l, hrest, ?_⟩
    rw [dispatches, hcall]
    rfl
  · rw [← happ] at hfull hok
    obtain ⟨n, a', l', hrest', hrun⟩ := ih (l.length + x'.length) (by omega)
      (s := s.reading h' szhead w a l) hin' hrest hfull hok rfl
    refine ⟨n + 1, a', l', hrest', ?_⟩
    rw [dispatches, hcall, hrun, happ]
    rfl

variable (itf) in
/-- With the heading at hand one call is enough. -/
theorem dispatch_whole {h a : Bytes} (hready : s.Ready) (havail : s.avail = h ++ a)
    (hfull : h.length = headingSize h) (hok : startRefused h = false) :
    websockDispatchWith e itf (s, g) = (false, dispatchFrameWith e itf (s.headed h a s.later, g)) := by
  have htwo : 2 ≤ h.length := by
    rw [hfull]
    unfold headingSize
    dsimp only
    omega
  obtain ⟨b₀, b₁, x, rfl⟩ : ∃ b₀ b₁ x, h = b₀ :: b₁ :: x := by
    match h, htwo with
    | b₀ :: b₁ :: x, _ => exact ⟨b₀, b₁, x, rfl⟩
  have hsize : headingSize [b₀, b₁] = (b₀ :: b₁ :: x).length := by
    rw [hfull]
    exact (headingSize_append (h := [b₀, b₁]) (x := x) (Nat.le_refl 2)).symm
  have hrefused : startRefused [b₀, b₁] = false := by
    rw [← hok]
    exact (startRefused_append (h := [b₀, b₁]) (x := x) (Nat.le_refl 2)).symm
  have hinit : websockDispatchWith e itf (s, g) = dispatchInitWith e itf (s, g) := by
    unfold websockDispatchWith
    rcases hready with hws | ⟨hws, hlen⟩
    · simp only [hws]
    · simp only [hws, hlen, ne_eq, not_true, if_false]
  have hread : readHeader { s with header := [], szhead := 2, wsState := .start } =
      (.data [b₀, b₁], s.reading [b₀, b₁] 2 .start (x ++ a) s.later) := by
    simp [readHeader, awsReadv, havail, Conn.reading]
  rw [hinit, dispatchInitWith, dispatchStartWith]
  dsimp only
  rw [hread]
  dsimp only [Conn.reading]
  rw [if_neg (by simp), if_neg (by rw [hrefused]; exact Bool.false_ne_true), dispatchLengthWith]
  dsimp only
  by_cases hx : x = []
  · subst hx
    rw [readHeader, if_neg (by dsimp only; rw [hsize]; exact Nat.lt_irrefl _)]
    dsimp only
    rw [if_neg (by rw [hsize]; exact Nat.lt_irrefl _)]
    rfl
  · have hread' : readHeader (s.reading [b₀, b₁] (headingSize [b₀, b₁]) .length (x ++ a) s.later) =
        (.data x, s.reading (b₀ :: b₁ :: x) (headingSize [b₀, b₁]) .length a s.later) := by
      have hpos := List.length_pos_iff.mpr hx
      simp [readHeader, awsReadv, Conn.reading, hsize, hx, hpos]
    unfold Conn.reading at hread'
    rw [hread']
    dsimp only
    rw [if_neg (by rw [hsize]; exact Nat.lt_irrefl _), hsize, hfull]
    rfl

end

end AfbBinder.Websock
