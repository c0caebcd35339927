import AfbBinder.Websock.Interface

/-! The callbacks of afb_ws with the memory block of their buffer: what is given to the
interface is a block, and the bytes it has. -/
namespace AfbBinder.Websock.Buffered
open Lib.Cstrings

/-- The struct buf of afb_ws, and the ones given to the interface. -/
structure Heap where
  buffer : Option Bytes
  size : Nat
  handed : List (Option Bytes × Nat)
  deriving DecidableEq, Repr

def Heap.start : Heap := ⟨none, 0, []⟩

/-- The bytes of the block are kept, those after it are whatever they are. -/
def realloc (fresh : Nat → UInt8) (buffer : Option Bytes) (size : Nat) : Bytes :=
  (List.range size).map fun i => (buffer.getD []).getD i (fresh i)

/-- Bytes written at the end of the buffer. -/
def Heap.store (h : Heap) (b : Bytes) : Heap :=
  { h with
    buffer := h.buffer.map fun block => block.take h.size ++ b ++ block.drop (h.size + b.length)
    size := h.size + b.length }

def awsPickBuffer (h : Heap) : (Option Bytes × Nat) × Heap :=
  ((h.buffer.map fun block => block.set h.size 0, h.size), { h with buffer := none, size := 0 })

def awsClearBuffer (h : Heap) : Heap := { h with size := 0 }

/-- The buffer is given to the interface. -/
def handBuffer (h : Heap) : Heap :=
  { (awsPickBuffer h).2 with handed := h.handed ++ [(awsPickBuffer h).1] }

/-- The bytes of a block that count. -/
def dataOf (b : Option Bytes × Nat) : Bytes := (b.1.getD []).take b.2

def Heap.content (h : Heap) : Bytes := dataOf (h.buffer, h.size)

section
variable (e : Env) (fresh : Nat → UInt8)

def awsReadLoop : Nat → Nat → Conn × Heap → ReadEnd × Conn × Heap
  | 0, _, p => (.blocked, p)
  | fuel + 1, size, (s, h) =>
    if size = 0 then (.done, s, h)
    else
      match websockRead (e.heap + h.size) size s with
      | (.data b, t) => awsReadLoop fuel (size - b.length) (t, h.store b)
      | (.again, t) =>
        if s.later = [] then (.blocked, { t with blocked := true }, h) else awsReadLoop fuel size (t, h)
      | (.closed, t) => (.failed, t, h)

def awsRead (size : Nat) (p : Conn × Heap) : ReadEnd × Conn × Heap :=
  if size ≠ 0 ∨ p.2.buffer = none then
    awsReadLoop e (size + p.1.later.length + 1) size
      (p.1, { p.2 with buffer := some (realloc fresh p.2.buffer (p.2.size + size + 1)) })
  else (.done, p)

def awsOnError (code : Nat) (p : Conn × Heap) : Conn × Heap := (Websock.awsOnError e code p.1, p.2)

def awsOnClose (code size : Nat) (p : Conn × Heap) : Conn × Heap :=
  let p := ({ p.1 with state := .waiting }, awsClearBuffer p.2)
  if e.onClose then
    match awsRead e fresh size p with
    | (.failed, s, h) => (s.tell [.onClose code none], h)
    | (.done, s, h) => (s.tell [.onClose code (some (dataOf (awsPickBuffer h).1))], handBuffer h)
    | (.blocked, p) => p
  else (afbWsHangup e (websockDrop e p.1), p.2)

def awsDropError (code : Nat) (p : Conn × Heap) : Conn × Heap :=
  (websockError e code (websockDrop e { p.1 with state := .waiting }), awsClearBuffer p.2)

def awsContinue (last : Bool) (size : Nat) (p : Conn × Heap) : Conn × Heap :=
  match awsRead e fresh size p with
  | (.failed, p) => awsDropError e WEBSOCKET_CODE_ABNORMAL p
  | (.done, s, h) =>
    if last then
      let istxt : Bool := s.state = .readingText
      let b := (awsPickBuffer h).1
      ({ s with state := .waiting }.tell [if istxt then .onText (dataOf b) else .onBinary (dataOf b)],
        handBuffer h)
    else (s, h)
  | (.blocked, p) => p

/-- Common text of aws_on_text and aws_on_binary. -/
def awsOnData (set : Bool) (reading : State) (last : Bool) (size : Nat) (p : Conn × Heap) : Conn × Heap :=
  if p.1.state ≠ .waiting then awsDropError e WEBSOCKET_CODE_PROTOCOL_ERROR p
  else if !set then awsDropError e WEBSOCKET_CODE_CANT_ACCEPT p
  else awsContinue e fresh last size ({ p.1 with state := reading }, p.2)

def awsOnText : Bool → Nat → Conn × Heap → Conn × Heap := awsOnData e fresh e.onText .readingText

def awsOnBinary : Bool → Nat → Conn × Heap → Conn × Heap := awsOnData e fresh e.onBinary .readingBinary

def awsOnContinue (last : Bool) (size : Nat) (p : Conn × Heap) : Conn × Heap :=
  if p.1.state = .waiting then awsDropError e WEBSOCKET_CODE_PROTOCOL_ERROR p
  else awsContinue e fresh last size p

def itf : Itf Heap where
  onContinue := awsOnContinue e fresh
  onText := awsOnText e fresh
  onBinary := awsOnBinary e fresh
  onClose := awsOnClose e fresh
  onError := awsOnError e

/-- aws_on_readable. -/
def awsOnReadable (p : Conn × Heap) : Conn × Heap :=
  match websockDispatchWith e (itf e fresh) p with
  | (true, s, h) => (afbWsHangup e s, h)
  | (false, p) => p

/-- Calls of aws_on_readable one after the other, as long as the websocket is connected. -/
def readables : Nat → Conn × Heap → Conn × Heap
  | 0, p => p
  | n + 1, p => if p.1.connected then readables n (awsOnReadable e fresh p) else p

end

/-! The connection alone is the one of the other modules. -/

/-- The connection with the content of the block. -/
def forget (p : Conn × Heap) : Conn := { p.1 with buffer := p.2.content }

/-- A place is left in the block for a NUL after this number of bytes more. -/
def Heap.Room (h : Heap) (n : Nat) : Prop := ∃ block, h.buffer = some block ∧ h.size + n < block.length

def Heap.Fit (h : Heap) : Prop := (h.buffer = none ∧ h.size = 0) ∨ h.Room 0

/-- A NUL follows the data. -/
def Terminated (b : Option Bytes × Nat) : Prop := ∃ block, b.1 = some block ∧ block[b.2]? = some 0

def Event.data : Event → Option Bytes
  | .onText data => some data
  | .onBinary data => some data
  | .onClose _ data => data
  | _ => none

/-- What was handed is terminated, and is what the events tell. -/
def Logged (p : Conn × Heap) : Prop :=
  p.2.handed.map dataOf = p.1.events.filterMap Event.data ∧ ∀ b ∈ p.2.handed, Terminated b

structure Sound (p : Conn × Heap) : Prop where
  fit : p.2.Fit
  logged : Logged p

section
variable {h : Heap} {b : Bytes} {n : Nat}

private theorem content_store (hroom : h.Room n) (hb : b.length ≤ n) : (h.store b).content =
    h.content ++ b := by
  obtain ⟨block, hbuffer, hsize⟩ := hroom
  have hlen : (block.take h.size).length = h.size := by
    rw [List.length_take]
    omega
  simp only [Heap.content, Heap.store, dataOf, hbuffer, Option.map_some, Option.getD_some]
  rw [List.take_append_of_le_length (by rw [List.length_append]; omega), List.take_of_length_le]
  rw [List.length_append]
  omega

private theorem room_store (hroom : h.Room n) (hb : b.length ≤ n) : (h.store b).Room (n - b.length) := by
  obtain ⟨block, hbuffer, hsize⟩ := hroom
  refine ⟨_, by rw [Heap.store, hbuffer]; rfl, ?_⟩
  simp only [Heap.store, List.length_append, List.length_take, List.length_drop]
  omega

private theorem length_realloc (fresh : Nat → UInt8) (buffer : Option Bytes) (size : Nat) :
    (realloc fresh buffer size).length = size := by
  rw [realloc, List.length_map, List.length_range]

private theorem content_realloc (fresh : Nat → UInt8) (hfit : h.Fit) :
    ({ h with buffer := some (realloc fresh h.buffer (h.size + n + 1)) } : Heap).content = h.content := by
  rcases hfit with ⟨hbuffer, hsize⟩ | ⟨block, hbuffer, hsize⟩
  · simp [Heap.content, dataOf, hsize]
  · simp only [Heap.content, dataOf, hbuffer, Option.getD_some]
    apply List.ext_getElem
    · simp only [List.length_take, length_realloc]
      omega
    · intro i h₁ h₂
      rw [List.length_take] at h₂
      have hi : i < block.length := by omega
      simp [realloc, List.getElem?_eq_getElem hi]

private theorem dataOf_pick (hfit : h.Fit) : dataOf (awsPickBuffer h).1 = h.content := by
  rcases hfit with ⟨hbuffer, hsize⟩ | ⟨block, hbuffer, hsize⟩
  · simp [awsPickBuffer, Heap.content, dataOf, hbuffer]
  · simp [awsPickBuffer, Heap.content, dataOf, hbuffer, List.take_set_of_le]

end

section
variable {e : Env} {fresh : Nat → UInt8} {s : Conn} {h : Heap} {p : Conn × Heap} {x : Bytes}

/-! Reading does not look at the buffer. -/

private theorem awsReadv_buffer (size : Nat) : awsReadv size { s with buffer := x } =
    ((awsReadv size s).1, { (awsReadv size s).2 with buffer := x }) := by
  rw [awsReadv_rest s size]
  exact awsReadv_beside (r := { s with buffer := x }) s size

private theorem websockRead_buffer (addr size : Nat) : websockRead addr size { s with buffer := x } =
    ((websockRead addr size s).1, { (websockRead addr size s).2 with buffer := x }) := by
  rw [websockRead_rest s addr size]
  exact websockRead_beside (r := { s with buffer := x }) s rfl addr size

private theorem websockDropLoop_buffer (fuel : Nat) : websockDropLoop e fuel { s with buffer := x } =
    { websockDropLoop e fuel s with buffer := x } := by
  rw [websockDropLoop_rest s fuel]
  exact websockDropLoop_beside (r := { s with buffer := x }) s rfl fuel

private theorem afbWsHangup_buffer : afbWsHangup e { s with buffer := x } =
    { afbWsHangup e s with buffer := x } := by
  unfold afbWsHangup
  dsimp only
  split <;> rfl

private theorem awsOnError_buffer (code : Nat) : Websock.awsOnError e code { s with buffer := x } =
    { Websock.awsOnError e code s with buffer := x } := by
  unfold Websock.awsOnError
  split
  · rfl
  · exact afbWsHangup_buffer

/-- A read gives at most what is asked. -/
theorem websockRead_length {addr size : Nat} {b : Bytes} {t : Conn}
    (hread : websockRead addr size s = (.data b, t)) : b.length ≤ size := by
  by_cases hdata : s.wsState = .data
  · by_cases ha : s.avail = []
    · rw [websockRead, if_pos hdata, awsReadv, if_pos ha] at hread
      cases hl : s.later with
      | nil =>
        rw [hl] at hread
        cases heof : s.eof <;> rw [heof] at hread <;> cases hread
      | cons c cs =>
        rw [hl] at hread
        cases hread
    · rw [websockRead_data hdata ha] at hread
      cases hread
      rw [length_unmaskBytes, List.length_take]
      omega
  · rw [websockRead, if_neg hdata] at hread
    cases hread
    exact Nat.zero_le _

/-- A read that keeps the log, keeps a place for the NUL and is the one of the connection. -/
structure ReadSim (p : Conn × Heap) (r : ReadEnd × Conn × Heap) (r' : ReadEnd × Conn) : Prop where
  same : r' = (r.1, forget r.2)
  room : r.2.2.Room 0
  handed : r.2.2.handed = p.2.handed
  events : r.2.1.events = p.1.events

private theorem Heap.Room.zero {n : Nat} (hroom : h.Room n) : h.Room 0 := by
  obtain ⟨block, hbuffer, hlt⟩ := hroom
  exact ⟨block, hbuffer, by omega⟩

private theorem awsReadLoop_sim (fuel : Nat) {size : Nat} (hroom : h.Room size) :
    ReadSim (s, h) (awsReadLoop e fuel size (s, h)) (Websock.awsReadLoop e fuel size (forget (s, h))) := by
  induction fuel generalizing s h size with
  | zero => exact ⟨rfl, hroom.zero, rfl, rfl⟩
  | succ fuel ih =>
    rw [awsReadLoop, Websock.awsReadLoop]
    by_cases hz : size = 0
    · rw [if_pos hz, if_pos hz]
      exact ⟨rfl, hroom.zero, rfl, rfl⟩
    rw [if_neg hz, if_neg hz]
    have haddr : (forget (s, h)).buffer.length = h.size := by
      obtain ⟨block, hbuffer, hlt⟩ := hroom
      simp only [forget, Heap.content, dataOf, hbuffer, Option.getD_some, List.length_take]
      omega
    have hsame : websockRead (e.heap + h.size) size (forget (s, h)) = _ :=
      websockRead_buffer (s := s) (x := h.content) (e.heap + h.size) size
    have hevents := congrArg Conn.events (websockRead_rest s (e.heap + h.size) size)
    rw [haddr, hsame]
    cases hread : websockRead (e.heap + h.size) size s with
    | mk rc t =>
      rw [hread] at hevents
      cases rc with
      | data b =>
        have hb := websockRead_length hread
        obtain ⟨hgo, hroom', hhanded, hevents'⟩ := ih (s := t) (room_store hroom hb)
        refine ⟨?_, hroom', hhanded, hevents'.trans hevents⟩
        rw [forget, content_store hroom hb] at hgo
        exact hgo
      | again =>
        dsimp only
        by_cases hl : s.later = []
        · rw [if_pos hl, if_pos (show (forget (s, h)).later = [] from hl)]
          exact ⟨rfl, hroom.zero, rfl, hevents⟩
        · rw [if_neg hl, if_neg (show ¬ (forget (s, h)).later = [] from hl)]
          obtain ⟨hgo, hroom', hhanded, hevents'⟩ := ih (s := t) hroom
          exact ⟨hgo, hroom', hhanded, hevents'.trans hevents⟩
      | closed => exact ⟨rfl, hroom.zero, rfl, hevents⟩

variable (fresh) in
private theorem awsRead_sim (size : Nat) (hfit : p.2.Fit) :
    ReadSim p (awsRead e fresh size p) (Websock.awsRead e size (forget p)) := by
  rw [awsRead]
  split
  · have hroom : ({ p.2 with buffer := some (realloc fresh p.2.buffer (p.2.size + size + 1)) } : Heap).Room
        size := ⟨_, rfl, by rw [length_realloc]; exact Nat.lt_succ_self _⟩
    have hloop := awsReadLoop_sim (e := e) (s := p.1) (size + p.1.later.length + 1) hroom
    rw [forget, content_realloc fresh hfit] at hloop
    exact ⟨hloop.same, hloop.room, hloop.handed, hloop.events⟩
  · rename_i hskip
    rw [not_or, not_not] at hskip
    obtain ⟨rfl, hbuffer⟩ := hskip
    refine ⟨rfl, ?_, rfl, rfl⟩
    exact hfit.resolve_left fun hnone => hbuffer hnone.1

/-! The callbacks. -/

private theorem tell_data (es : List Event) :
    (s.tell es).events.filterMap Event.data = s.events.filterMap Event.data ++ es.filterMap Event.data :=
  List.filterMap_append ..

private theorem websockClose_data (code : Nat) (data : Bytes) :
    (websockClose code data).filterMap Event.data = [] := by
  unfold websockClose
  split_ifs <;> rfl

private theorem afbWsHangup_data :
    (afbWsHangup e s).events.filterMap Event.data = s.events.filterMap Event.data := by
  unfold afbWsHangup
  split
  · cases e.onHangup <;> simp [Conn.tell, Event.data]
  · rfl

private theorem awsOnError_data (code : Nat) :
    (Websock.awsOnError e code s).events.filterMap Event.data = s.events.filterMap Event.data := by
  unfold Websock.awsOnError
  split
  · simp [Conn.tell, Event.data]
  · exact afbWsHangup_data

private theorem websockError_data (code : Nat) :
    (websockError e code s).events.filterMap Event.data = s.events.filterMap Event.data := by
  rw [websockError, awsOnError_data, tell_data, websockClose_data, List.append_nil]

/-- A callback with the block keeps it sound and is the one of the connection. -/
structure Sim (p : Conn × Heap) (s : Conn) : Prop where
  same : s = forget p
  sound : Sound p

private theorem sound_events {t : Conn} (hs : Sound p)
    (hevents : t.events.filterMap Event.data = p.1.events.filterMap Event.data) : Sound (t, p.2) := by
  refine ⟨hs.fit, ?_⟩
  rw [Logged, hevents]
  exact hs.logged

private theorem sound_clear {s : Conn} (hs : Sound p) (hevents : s.events.filterMap Event.data =
    p.1.events.filterMap Event.data) : Sound (s, awsClearBuffer p.2) := by
  refine ⟨?_, ?_⟩
  · rcases hs.fit with ⟨hbuffer, -⟩ | ⟨block, hbuffer, hlt⟩
    · exact .inl ⟨hbuffer, rfl⟩
    · exact .inr ⟨block, hbuffer, by dsimp only [awsClearBuffer]; omega⟩
  · rw [Logged, hevents]
    exact hs.logged

private theorem websockDrop_events : (websockDrop e s).events = s.events := by
  rw [websockDrop, websockDropLoop_rest]
  rfl

private theorem websockDrop_waiting : websockDrop e { forget p with state := .waiting, buffer := [] } =
    { websockDrop e { p.1 with state := .waiting } with buffer := [] } :=
  websockDropLoop_buffer (s := { p.1 with state := .waiting }) _

private theorem awsDropError_sim (code : Nat) (hs : Sound p) :
    Sim (awsDropError e code p) (Websock.awsDropError e code (forget p)) := by
  refine ⟨?_, sound_clear hs ?_⟩
  · rw [Websock.awsDropError, websockDrop_waiting]
    exact awsOnError_buffer (s := (websockDrop e { p.1 with state := .waiting }).tell _) code
  · rw [websockError_data, websockDrop_events]

/-- The buffer is handed with a NUL after its data. -/
theorem sound_hand {t : Conn} {ev : Event} (hs : Sound p) (hroom : h.Room 0)
    (hhanded : h.handed = p.2.handed) (hevents : t.events = p.1.events)
    (hev : Event.data ev = some (dataOf (awsPickBuffer h).1)) : Sound (t.tell [ev], handBuffer h) := by
  obtain ⟨block, hbuffer, hlt⟩ := hroom
  obtain ⟨hdata, hterminated⟩ := hs.logged
  refine ⟨.inl ⟨rfl, rfl⟩, ?_, ?_⟩
  · simp [handBuffer, Conn.tell, hhanded, hevents, hdata, hev]
  · intro b hb
    rw [handBuffer, List.mem_append, List.mem_singleton] at hb
    rcases hb with hb | rfl
    · exact hterminated b (hhanded ▸ hb)
    · refine ⟨block.set h.size 0, by rw [awsPickBuffer, hbuffer]; rfl, ?_⟩
      exact List.getElem?_set_self hlt

private theorem sound_read {t : Conn} (hs : Sound p) (hroom : h.Room 0)
    (hhanded : h.handed = p.2.handed) (hevents : t.events = p.1.events) : Sound (t, h) := by
  refine ⟨.inr hroom, ?_⟩
  rw [Logged, hhanded, hevents]
  exact hs.logged

private theorem awsContinue_sim (last : Bool) (size : Nat) (hs : Sound p) :
    Sim (awsContinue e fresh last size p) (Websock.awsContinue e last size (forget p)) := by
  obtain ⟨hsame, hroom, hhanded, hevents⟩ := awsRead_sim fresh (e := e) size hs.fit
  rw [awsContinue, Websock.awsContinue, hsame]
  cases hread : awsRead e fresh size p with
  | mk r q =>
    rw [hread] at hroom hhanded hevents
    obtain ⟨t, h⟩ := q
    have hsound := sound_read hs hroom hhanded hevents
    cases r with
    | failed => exact awsDropError_sim _ hsound
    | blocked => exact ⟨rfl, hsound⟩
    | done =>
      cases last with
      | false => exact ⟨rfl, hsound⟩
      | true =>
        have hdata : dataOf (awsPickBuffer h).1 = h.content := dataOf_pick (.inr hroom)
        dsimp only
        rw [if_pos rfl, if_pos rfl, hdata]
        refine ⟨rfl, sound_hand (t := { t with state := .waiting }) hs hroom hhanded hevents ?_⟩
        rw [hdata]
        split <;> rfl

private theorem awsOnData_sim (set : Bool) (reading : State) (last : Bool) (size : Nat) (hs : Sound p) :
    Sim (awsOnData e fresh set reading last size p)
      (Websock.awsOnData e set reading last size (forget p)) := by
  have hstate : (forget p).state = p.1.state := rfl
  rw [awsOnData, Websock.awsOnData, hstate]
  split
  · exact awsDropError_sim _ hs
  · split
    · exact awsDropError_sim _ hs
    · exact awsContinue_sim (p := ({ p.1 with state := reading }, p.2)) last size ⟨hs.fit, hs.logged⟩

private theorem awsOnContinue_sim (last : Bool) (size : Nat) (hs : Sound p) :
    Sim (awsOnContinue e fresh last size p) (Websock.awsOnContinue e last size (forget p)) := by
  have hstate : (forget p).state = p.1.state := rfl
  rw [awsOnContinue, Websock.awsOnContinue, hstate]
  split
  · exact awsDropError_sim _ hs
  · exact awsContinue_sim last size hs

private theorem awsOnClose_sim (code size : Nat) (hs : Sound p) :
    Sim (awsOnClose e fresh code size p) (Websock.awsOnClose e code size (forget p)) := by
  have hclear : Sound ({ p.1 with state := .waiting }, awsClearBuffer p.2) := sound_clear hs rfl
  obtain ⟨hsame, hroom, hhanded, hevents⟩ := awsRead_sim fresh (e := e) size hclear.fit
  have hforget : forget ({ p.1 with state := .waiting }, awsClearBuffer p.2) =
      { forget p with state := .waiting, buffer := [] } := rfl
  rw [hforget] at hsame
  rw [awsOnClose, Websock.awsOnClose]
  dsimp only
  split
  · rw [hsame]
    cases hread : awsRead e fresh size ({ p.1 with state := .waiting }, awsClearBuffer p.2) with
    | mk r q =>
      rw [hread] at hroom hhanded hevents
      obtain ⟨t, h⟩ := q
      have hsound := sound_read hclear hroom hhanded hevents
      cases r with
      | failed =>
        refine ⟨rfl, sound_events hsound ?_⟩
        rw [tell_data, show [Event.onClose code none].filterMap Event.data = [] from rfl, List.append_nil]
      | blocked => exact ⟨rfl, hsound⟩
      | done =>
        have hdata : dataOf (awsPickBuffer h).1 = h.content := dataOf_pick (.inr hroom)
        dsimp only
        rw [hdata]
        refine ⟨rfl, sound_hand hclear hroom hhanded hevents ?_⟩
        rw [hdata]
        rfl
  · refine ⟨?_, sound_clear hs ?_⟩
    · rw [websockDrop_waiting]
      exact afbWsHangup_buffer
    · rw [afbWsHangup_data, websockDrop_events]

/-! The dispatch. -/

variable (fresh) in
private theorem call_sim (c : Call) (hs : Sound p) :
    Sim ((itf e fresh).call e c p) ((awsItf e).call e c (forget p, ())).1 := by
  have hdrop : websockDrop e (forget p) = { websockDrop e p.1 with buffer := p.2.content } :=
    websockDropLoop_buffer _
  have hevents : (websockDrop e p.1).events = p.1.events := websockDrop_events
  cases c with
  | onContinue last size => exact awsOnContinue_sim last size hs
  | onText last size => exact awsOnData_sim _ _ last size hs
  | onBinary last size => exact awsOnData_sim _ _ last size hs
  | onClose code size => exact awsOnClose_sim code size hs
  | ping =>
    refine ⟨?_, sound_events hs ?_⟩
    · change { (websockDrop e (forget p)).tell (websockPong []) with wsState := .init } = _
      rw [hdrop]
      rfl
    · change ((websockDrop e p.1).tell (websockPong [])).events.filterMap Event.data = _
      rw [tell_data, hevents]
      exact List.append_nil _
  | pong =>
    refine ⟨?_, sound_events hs (congrArg _ hevents)⟩
    change { websockDrop e (forget p) with wsState := .init } = _
    rw [hdrop]
    rfl
  | error code =>
    refine ⟨?_, sound_events (p := p) (t := websockError e code p.1) hs (websockError_data code)⟩
    exact awsOnError_buffer (s := p.1.tell (websockClose code [])) code

private theorem readHeader_buffer : readHeader { s with buffer := x } =
    ((readHeader s).1, { (readHeader s).2 with buffer := x }) := by
  unfold readHeader
  dsimp only
  split
  · rw [awsReadv_buffer]
    cases awsReadv (s.szhead - s.header.length) s with
    | mk rc t => cases rc <;> rfl
  · rfl

private theorem readHeader_events : (readHeader s).2.events = s.events := by
  have hread := congrArg Conn.events (awsReadv_rest s (s.szhead - s.header.length))
  unfold readHeader
  split
  · cases h : awsReadv (s.szhead - s.header.length) s with
    | mk rc t =>
      rw [h] at hread
      cases rc <;> exact hread
  · rfl

/-- A call of a part of websock_dispatch. -/
structure DispatchSim (r : Bool × Conn × Heap) (r' : Bool × Conn × Unit) : Prop where
  same : r' = (r.1, forget r.2, ())
  sound : Sound r.2

variable (fresh) in
private theorem dispatchFrame_sim (hs : Sound p) :
    Sim (dispatchFrameWith e (itf e fresh) p) (dispatchFrameWith e (awsItf e) (forget p, ())).1 := by
  have hdecoded : (forget p).decoded e = forget (p.1.decoded e, p.2) := by
    unfold Conn.decoded forget
    dsimp only
    split <;> rfl
  have hevents : (p.1.decoded e).events = p.1.events := by
    unfold Conn.decoded
    dsimp only
    split <;> rfl
  have hcall := call_sim fresh (e := e) (frameCall e p.1.header p.1.szhead)
    (sound_events hs (congrArg _ hevents))
  rw [← hdecoded] at hcall
  exact hcall

private theorem dispatchLength_sim (hs : Sound p) :
    DispatchSim (dispatchLengthWith e (itf e fresh) p) (dispatchLengthWith e (awsItf e) (forget p, ())) := by
  have hsame : readHeader (forget p) = _ := readHeader_buffer (s := p.1) (x := p.2.content)
  have hread := sound_events hs (congrArg _ (readHeader_events (s := p.1)))
  unfold dispatchLengthWith
  dsimp only
  rw [hsame]
  cases h : readHeader p.1 with
  | mk rc t =>
    rw [h] at hread
    cases rc with
    | again => exact ⟨rfl, hread⟩
    | closed => exact ⟨rfl, hread⟩
    | data b =>
      dsimp only
      by_cases hpart : t.header.length < t.szhead
      · rw [if_pos hpart, if_pos hpart]
        exact ⟨rfl, hread⟩
      · rw [if_neg hpart, if_neg hpart]
        obtain ⟨hgo, hsound⟩ := dispatchFrame_sim fresh (e := e) hread
        exact ⟨Prod.ext rfl (Prod.ext hgo rfl), hsound⟩

private theorem dispatchStart_sim (hs : Sound p) :
    DispatchSim (dispatchStartWith e (itf e fresh) p) (dispatchStartWith e (awsItf e) (forget p, ())) := by
  have hsame : readHeader (forget p) = _ := readHeader_buffer (s := p.1) (x := p.2.content)
  have hread := sound_events hs (congrArg _ (readHeader_events (s := p.1)))
  unfold dispatchStartWith
  dsimp only
  rw [hsame]
  cases h : readHeader p.1 with
  | mk rc t =>
    rw [h] at hread
    cases rc with
    | again => exact ⟨rfl, hread⟩
    | closed => exact ⟨rfl, hread⟩
    | data b =>
      dsimp only
      by_cases hpart : t.header.length < t.szhead
      · rw [if_pos hpart, if_pos hpart]
        exact ⟨rfl, hread⟩
      · rw [if_neg hpart, if_neg hpart]
        by_cases hrefused : startRefused t.header = true
        · rw [if_pos hrefused, if_pos hrefused]
          obtain ⟨hgo, hsound⟩ := call_sim fresh (e := e)
            (.error WEBSOCKET_CODE_PROTOCOL_ERROR) hread
          exact ⟨Prod.ext rfl (Prod.ext hgo rfl), hsound⟩
        · rw [if_neg hrefused, if_neg hrefused]
          exact dispatchLength_sim (p := ({ t with szhead := headingSize t.header, wsState := .length }, p.2))
            (sound_events (p := (t, p.2)) hread rfl)

variable (fresh) in
private theorem dispatch_sim (hs : Sound p) :
    DispatchSim (websockDispatchWith e (itf e fresh) p) (websockDispatchWith e (awsItf e) (forget p, ())) := by
  have hinit : DispatchSim (dispatchInitWith e (itf e fresh) p) (dispatchInitWith e (awsItf e) (forget p, ())) :=
    dispatchStart_sim (p := ({ p.1 with header := [], szhead := 2, wsState := .start }, p.2))
      (sound_events hs rfl)
  have hws : (forget p).wsState = p.1.wsState := rfl
  have hlength : (forget p).length = p.1.length := rfl
  unfold websockDispatchWith
  dsimp only
  rw [hws, hlength]
  cases p.1.wsState with
  | init => exact hinit
  | start => exact dispatchStart_sim hs
  | length => exact dispatchLength_sim hs
  | data =>
    dsimp only
    by_cases hz : p.1.length ≠ 0
    · rw [if_pos hz, if_pos hz]
      exact ⟨rfl, hs⟩
    · rw [if_neg hz, if_neg hz]
      exact hinit

variable (fresh) in
/-- aws_on_readable with the block keeps it sound and is the one of the connection. -/
theorem awsOnReadable_sim (hs : Sound p) :
    Sim (awsOnReadable e fresh p) (Websock.awsOnReadable e (forget p)) := by
  obtain ⟨hsame, hsound⟩ := dispatch_sim fresh (e := e) hs
  rw [websockDispatch_aws] at hsame
  have hdispatch : websockDispatch e (forget p) =
      ((websockDispatchWith e (itf e fresh) p).1, forget (websockDispatchWith e (itf e fresh) p).2) :=
    Prod.ext (Prod.mk.inj hsame).1 (Prod.mk.inj (Prod.mk.inj hsame).2).1
  rw [awsOnReadable, Websock.awsOnReadable, hdispatch]
  cases hrun : websockDispatchWith e (itf e fresh) p with
  | mk epipe q =>
    rw [hrun] at hsound
    cases epipe with
    | false => exact ⟨rfl, hsound⟩
    | true => exact ⟨afbWsHangup_buffer, sound_events hsound afbWsHangup_data⟩

theorem sound_start (s : Conn) (hs : s.events = []) : Sound (s, Heap.start) := by
  refine ⟨.inl ⟨rfl, rfl⟩, ?_, fun b hb => nomatch hb⟩
  rw [hs]
  rfl

end

end AfbBinder.Websock.Buffered
