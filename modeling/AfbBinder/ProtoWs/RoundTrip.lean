import Mathlib.Algebra.Group.Nat.Defs
import AfbBinder.ProtoWs.Reading

/-! What a receiver is told is what the sender wrote, for each kind of message. -/
namespace AfbBinder.ProtoWs
open Lib.Cstrings Lib.Le32 Lib.Reader
variable {J : Type}

/-- The messages, as their senders are asked for them. -/
inductive Message (J : Type) where
  | call (callid : UInt32) (verb : CString) (args : J) (sessionid : CString)
      (userCreds : Option CString)
  | reply (callid : UInt32) (obj : J) (error info : Option CString)
  | subscribe (callid : UInt32) (eventName : CString) (eventId : Int32)
  | unsubscribe (callid : UInt32) (eventName : CString) (eventId : Int32)
  | eventCreate (eventName : CString) (eventId : Int32)
  | eventRemove (eventName : CString) (eventId : Int32)
  | eventPush (eventName : CString) (eventId : Int32) (data : J)
  | eventBroadcast (eventName : CString) (data : J)
  | describe (descid : UInt32)
  | description (descid : UInt32) (descobj : J)

namespace Message

def encode (jc : Jsonc J) : Message J → Option Writebuf
  | call callid verb args sessionid userCreds =>
    afbProtoWsClientCall jc callid verb args sessionid userCreds
  | reply callid obj error info => afbProtoWsCallReply jc callid obj error info
  | subscribe callid name id => afbProtoWsCallSubscribe callid name id
  | unsubscribe callid name id => afbProtoWsCallUnsubscribe callid name id
  | eventCreate name id => afbProtoWsServerEventCreate jc name id
  | eventRemove name id => afbProtoWsServerEventRemove jc name id
  | eventPush name id data => afbProtoWsServerEventPush jc name id data
  | eventBroadcast name data => afbProtoWsServerEventBroadcast jc name data
  | describe descid => afbProtoWsClientDescribe descid
  | description descid descobj => serverSendDescription jc descid descobj

/-- The job of the side that receives the message. -/
def deliver (mem : Memory) (jc : Jsonc J) (p : Protows) (rb : Window) : Message J → Outcome J
  | call .. | describe .. => serverOnBinaryJob mem jc p 0 true rb
  | _ => clientOnBinaryJob mem jc p 0 rb

/-- The callback that the receiver owes to the message: it is set, and the call or the
request of description that the message is about is pending. -/
def owed (p : Protows) : Message J → Option (Callback J Bytes)
  | call callid verb args sessionid userCreds =>
    some (.onCall callid verb.1 args sessionid.1 (userCreds.map (·.1)))
  | reply callid obj error info => (clientCallSearch p callid).map fun c =>
    .onReply c.request obj (error.map (·.1)) (info.map (·.1))
  | subscribe callid name id => if p.itf.onEventSubscribe then
      (clientCallSearch p callid).map fun c => .onEventSubscribe c.request name.1 id
    else none
  | unsubscribe callid name id => if p.itf.onEventUnsubscribe then
      (clientCallSearch p callid).map fun c => .onEventUnsubscribe c.request name.1 id
    else none
  | eventCreate name id => if p.itf.onEventCreate then some (.onEventCreate name.1 id) else none
  | eventRemove name id => if p.itf.onEventRemove then some (.onEventRemove name.1 id) else none
  | eventPush name id data =>
    if p.itf.onEventPush then some (.onEventPush name.1 id data) else none
  | eventBroadcast name data =>
    if p.itf.onEventBroadcast then some (.onEventBroadcast name.1 data) else none
  | describe descid => if p.itf.onDescribe then some (.onDescribe descid) else none
  | description descid descobj => (p.describes.find? (·.descid = descid)).map fun d =>
    .onDescription d.closure descobj

end Message

/-! The fields as they are written. -/

/-- The length, with its terminator, has 32 bits. -/
def Fits (s : CString) : Prop := s.1.length + 1 < 2 ^ 32

/-- The text of the object is printed and fits. -/
def Prints (jc : Jsonc J) (j : J) : Prop := ∃ t, jc.print j = some t ∧ Fits t

/-- The strings of the message and the texts of its object fit. -/
def Message.Sendable (jc : Jsonc J) : Message J → Prop
  | call _ verb args sessionid userCreds =>
    Fits verb ∧ Prints jc args ∧ Fits sessionid ∧ ∀ x ∈ userCreds, Fits x
  | reply _ obj error info => Prints jc obj ∧ (∀ x ∈ error, Fits x) ∧ ∀ x ∈ info, Fits x
  | subscribe _ name _ | unsubscribe _ name _ => Fits name
  | eventCreate name _ | eventRemove name _ => Fits name
  | eventPush name _ data | eventBroadcast name data => Fits name ∧ Prints jc data
  | describe _ => True
  | description _ descobj => Prints jc descobj

def stringBytes (s : CString) : Bytes :=
  htole32 (UInt32.ofNat (s.1.length + 1)) ++ (s.1 ++ [0])

def nullstringBytes : Option CString → Bytes
  | some s => stringBytes s
  | none => htole32 0

section
variable {wb wb' : Writebuf}

private theorem put_bytes {v : Bytes} (h : writebufPut wb v = some wb') :
    wb'.flatten = wb.flatten ++ v := by
  unfold writebufPut at h
  split at h
  · cases h
  · cases h
    simp

private theorem string_bytes {s : CString} (h : writebufString wb s = some wb') :
    wb'.flatten = wb.flatten ++ stringBytes s ∧ Fits s := by
  simp only [writebufString] at h
  split at h
  · rename_i hlen
    obtain ⟨wb₁, h₁, h₂⟩ := Option.bind_eq_some_iff.mp h
    rw [put_bytes h₂, put_bytes h₁, List.append_assoc]
    refine ⟨rfl, ?_⟩
    have := UInt32.toNat_lt (UInt32.ofNat (s.1.length + 1))
    unfold Fits
    omega
  · cases h

private theorem nullstring_bytes {s : Option CString} (h : writebufNullstring wb s = some wb') :
    wb'.flatten = wb.flatten ++ nullstringBytes s ∧ ∀ x ∈ s, Fits x := by
  cases s with
  | none => exact ⟨put_bytes h, fun _ hx => by cases hx⟩
  | some x =>
    obtain ⟨hb, hf⟩ := string_bytes h
    refine ⟨hb, ?_⟩
    rintro _ ⟨⟩
    exact hf

private theorem object_bytes {jc : Jsonc J} {j : J} (h : writebufObject jc wb j = some wb') :
    ∃ t, jc.print j = some t ∧ wb'.flatten = wb.flatten ++ stringBytes t ∧ Fits t := by
  obtain ⟨t, ht, h⟩ := Option.bind_eq_some_iff.mp h
  exact ⟨t, ht, string_bytes h⟩

/-- The writer succeeds when there is room for the pieces it adds. -/
private def Builds (f : Writebuf → Option Writebuf) (n : Nat) : Prop :=
  ∀ wb : Writebuf, wb.length + n ≤ WRITEBUF_COUNT_MAX → ∃ wb', f wb = some wb' ∧
    wb'.length = wb.length + n

private theorem builds_put (v : Bytes) : Builds (writebufPut · v) 1 := by
  intro wb hwb
  refine ⟨wb ++ [v], if_neg (by omega), by simp⟩

private theorem builds_some : Builds some 0 := fun wb _ => ⟨wb, rfl, rfl⟩

private theorem builds_bind {f g : Writebuf → Option Writebuf} {m n : Nat} (hf : Builds f m)
    (hg : Builds g n) : Builds (fun wb => (f wb).bind g) (m + n) := by
  intro wb hwb
  obtain ⟨wb₁, h₁, hl₁⟩ := hf wb (by omega)
  obtain ⟨wb₂, h₂, hl₂⟩ := hg wb₁ (by omega)
  exact ⟨wb₂, by simp only [h₁, Option.bind_some, h₂], by omega⟩

private theorem builds_string {s : CString} (hf : Fits s) : Builds (writebufString · s) 2 := by
  have hlen : (UInt32.ofNat (s.1.length + 1)).toNat = s.1.length + 1 :=
    UInt32.toNat_ofNat_of_lt' hf
  have hpos : UInt32.ofNat (s.1.length + 1) ≠ 0 := by
    intro h
    rw [h] at hlen
    simp at hlen
  have hok : (UInt32.ofNat (s.1.length + 1)).toNat = s.1.length + 1 ∧
      UInt32.ofNat (s.1.length + 1) ≠ 0 := ⟨hlen, hpos⟩
  simp only [writebufString, if_pos hok]
  exact builds_bind (builds_put _) (builds_put _)

private theorem builds_nullstring {s : Option CString} (hf : ∀ x ∈ s, Fits x) :
    ∃ n ≤ 2, Builds (writebufNullstring · s) n := by
  cases s with
  | none => exact ⟨1, by omega, builds_put _⟩
  | some x => exact ⟨2, Nat.le_refl 2, builds_string (hf x rfl)⟩

private theorem builds_object {jc : Jsonc J} {j : J} (h : Prints jc j) :
    Builds (writebufObject jc · j) 2 := by
  obtain ⟨t, ht, hf⟩ := h
  simp only [writebufObject, ht]
  exact builds_string hf

end

section
variable {s : CString} {rest : Bytes}

theorem parseUint32_write (v : UInt32) : parseUint32 (htole32 v ++ rest) = some (v, rest) := by
  simp only [htole32, List.cons_append, List.nil_append, parseUint32, le32toh_htole32]

private theorem parseStringOr_write (nulok : Bool) (hf : Fits s) :
    parseStringOr nulok (stringBytes s ++ rest) = some (some s.1, rest) := by
  have hlen : (UInt32.ofNat (s.1.length + 1)).toNat = s.1.length + 1 :=
    UInt32.toNat_ofNat_of_lt' hf
  have hpos : UInt32.ofNat (s.1.length + 1) ≠ 0 := by
    intro h
    rw [h] at hlen
    simp at hlen
  have hcut : (s.1 ++ [0]).takeWhile (· ≠ 0) = s.1 := by
    rw [List.takeWhile_append_of_pos]
    · simp
    · intro a ha
      simp only [ne_eq, decide_eq_true_eq]
      rintro rfl
      exact s.2 ha
  rw [stringBytes, List.append_assoc, parseStringOr, parser_bind, parseUint32_write,
    Option.bind_some, if_neg hpos]
  simp only [hlen]
  rw [if_pos]
  · rw [List.take_left' (by simp), List.drop_left' (by simp), hcut]
  · simp

private theorem parseString_write (hf : Fits s) :
    parseString (stringBytes s ++ rest) = some (s.1, rest) := by
  rw [parseString, parser_bind, parseStringOr_write false hf]
  rfl

private theorem parseNullstring_write {s : Option CString} (hf : ∀ x ∈ s, Fits x) :
    parseNullstring (nullstringBytes s ++ rest) = some (s.map (·.1), rest) := by
  cases s with
  | none =>
    rw [nullstringBytes, parseNullstring, parseStringOr, parser_bind, parseUint32_write]
    rfl
  | some x => exact parseStringOr_write true (hf x rfl)

theorem parseObject_write {jc : Jsonc J} (hjson : ∀ j t, jc.print j = some t →
    jc.parse t.1 = some j) {j : J} {t : CString} (ht : jc.print j = some t) (hf : Fits t) :
    parseObject jc (stringBytes t ++ rest) = some (j, rest) := by
  rw [parseObject, parser_bind, parseString_write hf]
  simp only [Option.bind_some, Jsonc.ofText, hjson j t ht, Option.getD_some]
  rfl

end

/-! The bytes of the messages. -/

section
variable {jc : Jsonc J} {wb : Writebuf}

theorem reply_bytes {callid : UInt32} {obj : J} {error info : Option CString}
    (h : afbProtoWsCallReply jc callid obj error info = some wb) :
    ∃ t, (jc.print obj = some t ∧ Fits t) ∧ (∀ x ∈ error, Fits x) ∧ (∀ x ∈ info, Fits x) ∧
      wb.flatten = CHAR_FOR_REPLY :: (htole32 callid ++ (nullstringBytes error ++
        (nullstringBytes info ++ (stringBytes t ++ [])))) := by
  simp only [afbProtoWsCallReply, Option.bind_eq_bind, Option.bind_eq_some_iff] at h
  obtain ⟨w₁, h₁, w₂, h₂, w₃, h₃, w₄, h₄, h⟩ := h
  obtain ⟨hb₃, herror⟩ := nullstring_bytes h₃
  obtain ⟨hb₄, hinfo⟩ := nullstring_bytes h₄
  obtain ⟨t, ht, hb, hf⟩ := object_bytes h
  refine ⟨t, ⟨ht, hf⟩, herror, hinfo, ?_⟩
  simp [hb, hb₄, hb₃, put_bytes h₂, put_bytes h₁]

theorem callEvent_bytes {order : UInt8} {callid : UInt32} {name : CString} {id : Int32}
    (h : callEvent order callid name id = some wb) :
    Fits name ∧ wb.flatten = order :: (htole32 callid ++ (htole32 id.toUInt32 ++
      (stringBytes name ++ []))) := by
  simp only [callEvent, Option.bind_eq_bind, Option.bind_eq_some_iff] at h
  obtain ⟨w₁, h₁, w₂, h₂, w₃, h₃, h⟩ := h
  obtain ⟨hb, hf⟩ := string_bytes h
  refine ⟨hf, ?_⟩
  simp [hb, put_bytes h₃, put_bytes h₂, put_bytes h₁]

theorem call_bytes {callid : UInt32} {verb sessionid : CString} {args : J}
    {userCreds : Option CString}
    (h : afbProtoWsClientCall jc callid verb args sessionid userCreds = some wb) :
    ∃ t, (jc.print args = some t ∧ Fits t) ∧ Fits verb ∧ Fits sessionid ∧
      (∀ x ∈ userCreds, Fits x) ∧
      wb.flatten = CHAR_FOR_CALL :: (htole32 callid ++ (stringBytes verb ++
        (stringBytes sessionid ++ (stringBytes t ++ (nullstringBytes userCreds ++ []))))) := by
  simp only [afbProtoWsClientCall, Option.bind_eq_bind, Option.bind_eq_some_iff] at h
  obtain ⟨w₁, h₁, w₂, h₂, w₃, h₃, w₄, h₄, w₅, h₅, h⟩ := h
  obtain ⟨hb₃, hverb⟩ := string_bytes h₃
  obtain ⟨hb₄, hsession⟩ := string_bytes h₄
  obtain ⟨t, ht, hb₅, hf⟩ := object_bytes h₅
  obtain ⟨hb, hcreds⟩ := nullstring_bytes h
  refine ⟨t, ⟨ht, hf⟩, hverb, hsession, hcreds, ?_⟩
  simp [hb, hb₅, hb₄, hb₃, put_bytes h₂, put_bytes h₁]

theorem describe_bytes {descid : UInt32} (h : afbProtoWsClientDescribe descid = some wb) :
    wb.flatten = CHAR_FOR_DESCRIBE :: (htole32 descid ++ []) := by
  simp only [afbProtoWsClientDescribe, Option.bind_eq_bind, Option.bind_eq_some_iff] at h
  obtain ⟨w₁, h₁, h⟩ := h
  simp [put_bytes h, put_bytes h₁]

theorem description_bytes {descid : UInt32} {descobj : J}
    (h : serverSendDescription jc descid descobj = some wb) :
    ∃ t, (jc.print descobj = some t ∧ Fits t) ∧
      wb.flatten = CHAR_FOR_DESCRIPTION :: (htole32 descid ++ (stringBytes t ++ [])) := by
  simp only [serverSendDescription, Option.bind_eq_bind, Option.bind_eq_some_iff] at h
  obtain ⟨w₁, h₁, w₂, h₂, h⟩ := h
  obtain ⟨t, ht, hb, hf⟩ := object_bytes h
  refine ⟨t, ⟨ht, hf⟩, ?_⟩
  simp [hb, put_bytes h₂, put_bytes h₁]

/-- Creation and removal have no data. -/
theorem eventOnly_bytes {order : UInt8} {name : CString} {id : Int32} {data : J}
    (ho : order = CHAR_FOR_EVT_ADD ∨ order = CHAR_FOR_EVT_DEL)
    (h : serverEventSend jc order name id data = some wb) :
    Fits name ∧ wb.flatten = order :: (htole32 id.toUInt32 ++ (stringBytes name ++ [])) := by
  have hb : order ≠ CHAR_FOR_EVT_BROADCAST := by
    rcases ho with rfl | rfl <;> decide
  simp only [serverEventSend, if_neg hb, if_pos ho, Option.bind_eq_bind, Option.bind_eq_some_iff] at h
  obtain ⟨w₁, h₁, w₂, h₂, w₃, h₃, h⟩ := h
  cases h
  obtain ⟨hb₃, hf⟩ := string_bytes h₃
  refine ⟨hf, ?_⟩
  simp [hb₃, put_bytes h₂, put_bytes h₁]

theorem push_bytes {name : CString} {id : Int32} {data : J}
    (h : afbProtoWsServerEventPush jc name id data = some wb) :
    ∃ t, (jc.print data = some t ∧ Fits t) ∧ Fits name ∧
      wb.flatten = CHAR_FOR_EVT_PUSH :: (htole32 id.toUInt32 ++ (stringBytes name ++
        (stringBytes t ++ []))) := by
  have hb : CHAR_FOR_EVT_PUSH ≠ CHAR_FOR_EVT_BROADCAST := by decide
  have ho : ¬ (CHAR_FOR_EVT_PUSH = CHAR_FOR_EVT_ADD ∨ CHAR_FOR_EVT_PUSH = CHAR_FOR_EVT_DEL) := by
    decide
  simp only [afbProtoWsServerEventPush, serverEventSend, if_neg hb, if_neg ho, Option.bind_eq_bind,
    Option.bind_eq_some_iff] at h
  obtain ⟨w₁, h₁, w₂, h₂, w₃, h₃, h⟩ := h
  obtain ⟨hb₃, hname⟩ := string_bytes h₃
  obtain ⟨t, ht, hb₄, hf⟩ := object_bytes h
  refine ⟨t, ⟨ht, hf⟩, hname, ?_⟩
  simp [hb₄, hb₃, put_bytes h₂, put_bytes h₁]

theorem broadcast_bytes {name : CString} {data : J}
    (h : afbProtoWsServerEventBroadcast jc name data = some wb) :
    ∃ t, (jc.print data = some t ∧ Fits t) ∧ Fits name ∧
      wb.flatten = CHAR_FOR_EVT_BROADCAST :: (stringBytes name ++ (stringBytes t ++ [])) := by
  have ho : ¬ (CHAR_FOR_EVT_BROADCAST = CHAR_FOR_EVT_ADD ∨
      CHAR_FOR_EVT_BROADCAST = CHAR_FOR_EVT_DEL) := by decide
  simp only [afbProtoWsServerEventBroadcast, serverEventSend, if_true, if_neg ho,
    Option.bind_eq_bind, Option.bind_eq_some_iff] at h
  obtain ⟨w₁, h₁, w₂, h₂, w₃, h₃, h⟩ := h
  cases h₂
  obtain ⟨hb₃, hname⟩ := string_bytes h₃
  obtain ⟨t, ht, hb₄, hf⟩ := object_bytes h
  refine ⟨t, ⟨ht, hf⟩, hname, ?_⟩
  simp [hb₄, hb₃, put_bytes h₁]

end

/-! What the handlers do of these bytes. -/

/-- One callback was called, this one once its strings are read. -/
def Tells (mem : Memory) (cb : Callback J Bytes) (o : Outcome J) : Prop :=
  o.callbacks.map (Callback.map (Text.content mem)) = [cb]

section
variable {mem : Memory} {jc : Jsonc J} {p : Protows} {rb : Window} {b : Bytes}

theorem onRead_told {α β : Type} {read : Rd α} {q : Parser β} {R : α → β → Prop}
    {callback : α → Callback J Text} {cb : Callback J Bytes} {y : β} {rest : Bytes} {set : Bool}
    (hset : set = true) (hr : Refines mem read q R) (hb : Holds mem rb b)
    (hq : q b = some (y, rest))
    (hcb : ∀ x, R x y → (callback x).map (Text.content mem) = cb) :
    Tells mem cb (onRead p set read callback rb) := by
  obtain ⟨x, rb', hx, hR, -⟩ := (hr rb b hb).2 y rest hq
  simp only [Tells, onRead, hset, if_true, hx, Option.map_some, Option.toList_some, List.map_cons,
    List.map_nil, hcb x hR]

theorem parseEvent_write {name : CString} {rest : Bytes} (id : UInt32) (hf : Fits name) :
    parseEvent (htole32 id ++ (stringBytes name ++ rest)) = some ((id, name.1), rest) := by
  rw [parseEvent, parser_bind, parseUint32_write, Option.bind_some, parser_bind,
    parseString_write hf]
  rfl

private theorem parseCall_write {callid : UInt32} {call : ClientCall} {rest : Bytes}
    (hs : clientCallSearch p callid = some call) :
    parseCall p (htole32 callid ++ rest) = some (call, rest) := by
  rw [parseCall, parser_bind, parseUint32_write, Option.bind_some]
  simp only [hs]
  rfl

private theorem parseCallEvent_write {callid : UInt32} {call : ClientCall} {name : CString}
    {rest : Bytes} (id : UInt32) (hs : clientCallSearch p callid = some call) (hf : Fits name) :
    parseCallEvent p (htole32 callid ++ (htole32 id ++ (stringBytes name ++ rest))) =
      some ((call, id, name.1), rest) := by
  rw [parseCallEvent, parser_bind, parseCall_write hs, Option.bind_some, parser_bind,
    parseEvent_write id hf]
  rfl

end

section
variable {jc : Jsonc J} (hjson : ∀ j t, jc.print j = some t → jc.parse t.1 = some j)
include hjson

theorem parseBroadcast_write {name t : CString} {data : J} {rest : Bytes}
    (hn : Fits name) (ht : jc.print data = some t ∧ Fits t) :
    parseBroadcast jc (stringBytes name ++ (stringBytes t ++ rest)) =
      some ((name.1, data), rest) := by
  rw [parseBroadcast, parser_bind, parseString_write hn, Option.bind_some, parser_bind,
    parseObject_write hjson ht.1 ht.2]
  rfl

theorem parsePush_write {name t : CString} {data : J} {rest : Bytes} (id : UInt32)
    (hn : Fits name) (ht : jc.print data = some t ∧ Fits t) :
    parsePush jc (htole32 id ++ (stringBytes name ++ (stringBytes t ++ rest))) =
      some (((id, name.1), data), rest) := by
  rw [parsePush, parser_bind, parseEvent_write id hn, Option.bind_some, parser_bind,
    parseObject_write hjson ht.1 ht.2]
  rfl

theorem parseReply_write {error info : Option CString} {t : CString} {obj : J}
    {rest : Bytes} (he : ∀ x ∈ error, Fits x) (hi : ∀ x ∈ info, Fits x)
    (ht : jc.print obj = some t ∧ Fits t) :
    parseReply jc (nullstringBytes error ++ (nullstringBytes info ++ (stringBytes t ++ rest))) =
      some ((error.map (·.1), info.map (·.1), obj), rest) := by
  rw [parseReply, parser_bind, parseNullstring_write he, Option.bind_some, parser_bind,
    parseNullstring_write hi, Option.bind_some, parser_bind, parseObject_write hjson ht.1 ht.2]
  rfl

theorem parseCallMessage_write {verb sessionid t : CString} {args : J}
    {userCreds : Option CString} {rest : Bytes} (callid : UInt32) (hv : Fits verb)
    (hs : Fits sessionid) (ht : jc.print args = some t ∧ Fits t)
    (hc : ∀ x ∈ userCreds, Fits x) :
    parseCallMessage jc (htole32 callid ++ (stringBytes verb ++ (stringBytes sessionid ++
      (stringBytes t ++ (nullstringBytes userCreds ++ rest))))) =
      some ((callid, verb.1, sessionid.1, args, userCreds.map (·.1)), rest) := by
  rw [parseCallMessage, parser_bind, parseUint32_write, Option.bind_some, parser_bind,
    parseString_write hv, Option.bind_some, parser_bind, parseString_write hs, Option.bind_some,
    parser_bind, parseObject_write hjson ht.1 ht.2, Option.bind_some, parser_bind,
    parseNullstring_write hc]
  rfl

end

section
variable {mem : Memory} {jc : Jsonc J} {p : Protows} {base : Nat} {c : UInt8} {b : Bytes}

theorem clientJob_received {P : Outcome J → Prop}
    (h : Holds mem (received base (c :: b).length) (c :: b))
    (hk : ∀ rb, Holds mem rb b → P (clientOnKind mem jc p c rb)) :
    P (clientOnBinaryJob mem jc p 0 (received base (c :: b).length)) := by
  obtain ⟨hc, hb⟩ := readKind_received h
  have := hk _ hb
  rw [← hc] at this
  exact this

theorem serverJob_received {P : Outcome J → Prop}
    (h : Holds mem (received base (c :: b).length) (c :: b))
    (hk : ∀ rb, Holds mem rb b → P (serverOnKind mem jc p true c rb)) :
    P (serverOnBinaryJob mem jc p 0 true (received base (c :: b).length)) := by
  obtain ⟨hc, hb⟩ := readKind_received h
  have := hk _ hb
  rw [← hc] at this
  exact this

end

section
variable {mem : Memory} {jc : Jsonc J} {p : Protows} {rb : Window} {b : Bytes}

/-- The messages of an event alone: created, removed. -/
theorem event_told {callback : UInt32 × Str → Callback J Text} {cb : Callback J Bytes}
    {set : Bool} {name : CString} {id : UInt32} (hset : set = true) (hf : Fits name)
    (hb : Holds mem rb (htole32 id ++ (stringBytes name ++ b)))
    (hcb : ∀ n : Str, n.content mem = name.1 →
      (callback (id, n)).map (Text.content mem) = cb) :
    Tells mem cb (onRead p set (clientMsgEventRead mem) callback rb) := by
  refine onRead_told hset refines_clientMsgEventRead hb (parseEvent_write id hf) ?_
  rintro ⟨_, n⟩ ⟨rfl, hn⟩
  exact hcb n hn

/-- The messages of a call and an event: subscribed, unsubscribed. -/
theorem callEvent_told {callback : ClientCall × UInt32 × Str → Callback J Text}
    {cb : Callback J Bytes} {set : Bool} {callid id : UInt32} {call : ClientCall}
    {name : CString} (hset : set = true) (hs : clientCallSearch p callid = some call)
    (hf : Fits name)
    (hb : Holds mem rb (htole32 callid ++ (htole32 id ++ (stringBytes name ++ b))))
    (hcb : ∀ n : Str, n.content mem = name.1 →
      (callback (call, id, n)).map (Text.content mem) = cb) :
    Tells mem cb (onRead p set (callEventRead mem p) callback rb) := by
  refine onRead_told hset (refines_callEventRead p) hb (parseCallEvent_write id hs hf) ?_
  rintro ⟨_, _, n⟩ ⟨rfl, rfl, hn⟩
  exact hcb n hn

theorem reply_told {callid : UInt32} {call : ClientCall} {y : Option Bytes × Option Bytes × J}
    {rest : Bytes} (hs : clientCallSearch p callid = some call)
    (hq : parseReply jc b = some (y, rest)) (hb : Holds mem rb (htole32 callid ++ b)) :
    Tells mem (.onReply call.request y.2.2 y.1 y.2.1) (clientOnReply mem jc p rb) := by
  obtain ⟨x, rb₁, hx, rfl, hb₁⟩ :=
    (refines_clientMsgCallGet p rb _ hb).2 call b (parseCall_write hs)
  obtain ⟨⟨e, i, o⟩, rb₂, hr, ⟨he, hi, ho⟩, -⟩ := (refines_replyRead jc rb₁ b hb₁).2 y rest hq
  have hmap (s : Option Str) : (s.map Text.buf).map (Text.content mem) = s.map (Str.content mem) := by
    cases s <;> rfl
  simp only [Tells, clientOnReply, hx, hr, List.map_cons, List.map_nil, Callback.map, hmap]
  rw [← he, ← hi, ← ho]

theorem description_told {descid : UInt32} {desc : ClientDescribe} {obj : J} {rest : Bytes}
    (hs : p.describes.find? (·.descid = descid) = some desc)
    (hq : parseObject jc b = some (obj, rest)) (hb : Holds mem rb (htole32 descid ++ b)) :
    Tells mem (.onDescription desc.closure obj) (clientOnDescription mem jc p rb) := by
  obtain ⟨x, rb₁, hx, rfl, hb₁⟩ :=
    (refines_readbufUint32 rb _ hb).2 descid b (parseUint32_write descid)
  obtain ⟨o, rb₂, hr, rfl, -⟩ := (refines_readbufObject jc rb₁ b hb₁).2 obj rest hq
  simp only [Tells, clientOnDescription, hx, hs, hr, Option.getD_some, List.map_cons, List.map_nil,
    Callback.map]

theorem call_told {y : UInt32 × Bytes × Bytes × J × Option Bytes} {rest : Bytes}
    (hq : parseCallMessage jc b = some (y, rest)) (hb : Holds mem rb b) :
    Tells mem (.onCall y.1 y.2.1 y.2.2.2.1 y.2.2.1 y.2.2.2.2) (serverOnCall mem jc p true rb) := by
  obtain ⟨⟨callid, verb, uuid, object, creds⟩, rb', hr, ⟨hid, hverb, huuid, hobject, hcreds⟩, -⟩ :=
    (refines_callRead jc rb b hb).2 y rest hq
  have hmap : (creds.map Text.buf).map (Text.content mem) = creds.map (Str.content mem) := by
    cases creds <;> rfl
  simp only [Tells, serverOnCall, hr, if_true, List.map_cons, List.map_nil, Callback.map, hmap,
    Text.content]
  rw [← hid, ← hverb, ← huuid, ← hobject, ← hcreds]

private theorem describe_told {descid : UInt32} (hset : p.itf.onDescribe = true)
    (hb : Holds mem rb (htole32 descid ++ b)) :
    Tells mem (.onDescribe descid) (serverOnDescribe mem jc p true rb) := by
  obtain ⟨x, rb₁, hx, rfl, -⟩ :=
    (refines_readbufUint32 rb _ hb).2 descid b (parseUint32_write descid)
  simp only [Tells, serverOnDescribe, hx, hset, and_self, if_true, List.map_cons, List.map_nil,
    Callback.map]

end

/-- The sender builds the message when its strings fit: no more than 11 pieces. -/
theorem encode_isSome (jc : Jsonc J) {m : Message J} (h : m.Sendable jc) :
    (m.encode jc).isSome := by
  have hb : ∃ f n, Builds f n ∧ n ≤ WRITEBUF_COUNT_MAX ∧ m.encode jc = f [] := by
    cases m with
    | call callid verb args sessionid userCreds =>
      obtain ⟨hv, ha, hs, hc⟩ := h
      obtain ⟨n, hn, hc⟩ := builds_nullstring hc
      refine ⟨_, _, builds_bind (builds_put [CHAR_FOR_CALL]) (builds_bind (builds_put (htole32 callid))
        (builds_bind (builds_string hv) (builds_bind (builds_string hs)
          (builds_bind (builds_object ha) hc)))), ?_, rfl⟩
      unfold WRITEBUF_COUNT_MAX
      omega
    | reply callid obj error info =>
      obtain ⟨ho, he, hi⟩ := h
      obtain ⟨n, hn, he⟩ := builds_nullstring he
      obtain ⟨n', hn', hi⟩ := builds_nullstring hi
      refine ⟨_, _, builds_bind (builds_put [CHAR_FOR_REPLY]) (builds_bind (builds_put (htole32 callid))
        (builds_bind he (builds_bind hi (builds_object ho)))), ?_, rfl⟩
      unfold WRITEBUF_COUNT_MAX
      omega
    | subscribe callid name id =>
      exact ⟨_, _, builds_bind (builds_put [CHAR_FOR_EVT_SUBSCRIBE]) (builds_bind
        (builds_put (htole32 callid)) (builds_bind (builds_put (htole32 id.toUInt32))
          (builds_string h))), by decide, rfl⟩
    | unsubscribe callid name id =>
      exact ⟨_, _, builds_bind (builds_put [CHAR_FOR_EVT_UNSUBSCRIBE]) (builds_bind
        (builds_put (htole32 callid)) (builds_bind (builds_put (htole32 id.toUInt32))
          (builds_string h))), by decide, rfl⟩
    | eventCreate name id =>
      exact ⟨_, _, builds_bind (builds_put [CHAR_FOR_EVT_ADD]) (builds_bind
        (builds_put (htole32 id.toUInt32)) (builds_bind (builds_string h) builds_some)),
        by decide, rfl⟩
    | eventRemove name id =>
      exact ⟨_, _, builds_bind (builds_put [CHAR_FOR_EVT_DEL]) (builds_bind
        (builds_put (htole32 id.toUInt32)) (builds_bind (builds_string h) builds_some)),
        by decide, rfl⟩
    | eventPush name id data =>
      exact ⟨_, _, builds_bind (builds_put [CHAR_FOR_EVT_PUSH]) (builds_bind
        (builds_put (htole32 id.toUInt32)) (builds_bind (builds_string h.1)
          (builds_object h.2))), by decide, rfl⟩
    | eventBroadcast name data =>
      exact ⟨_, _, builds_bind (builds_put [CHAR_FOR_EVT_BROADCAST]) (builds_bind
        (builds_string h.1) (builds_object h.2)), by decide, rfl⟩
    | describe descid =>
      exact ⟨_, _, builds_bind (builds_put [CHAR_FOR_DESCRIBE]) (builds_put (htole32 descid)),
        by decide, rfl⟩
    | description descid descobj =>
      exact ⟨_, _, builds_bind (builds_put [CHAR_FOR_DESCRIPTION]) (builds_bind
        (builds_put (htole32 descid)) (builds_object h)), by decide, rfl⟩
  obtain ⟨f, n, hf, hn, he⟩ := hb
  obtain ⟨wb, hwb, -⟩ := hf [] (by simpa using hn)
  rw [he, hwb]
  rfl

/-- A message that is built is told once to the receiver, with the same identifiers,
strings and object, provided that the library reads the objects it prints. -/
theorem message_round_trip (jc : Jsonc J)
    (hjson : ∀ j t, jc.print j = some t → jc.parse t.1 = some j) (p : Protows) (m : Message J)
    (cb : Callback J Bytes) (ho : m.owed p = some cb) :
    (m.Sendable jc → (m.encode jc).isSome) ∧
      ∀ wb, m.encode jc = some wb → ∀ mem base,
        Holds mem (received base wb.flatten.length) wb.flatten →
        Tells mem cb (m.deliver mem jc p (received base wb.flatten.length)) := by
  refine ⟨encode_isSome jc, fun wb h mem base => ?_⟩
  cases m with
  | call callid verb args sessionid userCreds =>
    obtain ⟨t, ht, hv, hs, hc, hwb⟩ := call_bytes h
    rw [hwb]
    refine fun hm => serverJob_received hm fun rb hb => ?_
    cases ho
    exact call_told (parseCallMessage_write hjson callid hv hs ht hc) hb
  | reply callid obj error info =>
    obtain ⟨t, ht, he, hi, hwb⟩ := reply_bytes h
    rw [hwb]
    refine fun hm => clientJob_received hm fun rb hb => ?_
    obtain ⟨call, hs, hcb⟩ := Option.map_eq_some_iff.mp ho
    rw [← hcb]
    exact reply_told hs (parseReply_write hjson he hi ht) hb
  | subscribe callid name id =>
    obtain ⟨hf, hwb⟩ := callEvent_bytes h
    rw [hwb]
    refine fun hm => clientJob_received hm fun rb hb => ?_
    obtain ⟨hset, ho⟩ := Option.ite_none_right_eq_some.mp ho
    obtain ⟨call, hs, hcb⟩ := Option.map_eq_some_iff.mp ho
    rw [← hcb]
    refine callEvent_told hset hs hf hb fun n hn => ?_
    simp only [Callback.map, Text.content, hn, Int32.toInt32_toUInt32]
  | unsubscribe callid name id =>
    obtain ⟨hf, hwb⟩ := callEvent_bytes h
    rw [hwb]
    refine fun hm => clientJob_received hm fun rb hb => ?_
    obtain ⟨hset, ho⟩ := Option.ite_none_right_eq_some.mp ho
    obtain ⟨call, hs, hcb⟩ := Option.map_eq_some_iff.mp ho
    rw [← hcb]
    refine callEvent_told hset hs hf hb fun n hn => ?_
    simp only [Callback.map, Text.content, hn, Int32.toInt32_toUInt32]
  | eventCreate name id =>
    obtain ⟨hf, hwb⟩ := eventOnly_bytes (by decide) h
    rw [hwb]
    refine fun hm => clientJob_received hm fun rb hb => ?_
    obtain ⟨hset, hcb⟩ := Option.ite_none_right_eq_some.mp ho
    rw [← Option.some.inj hcb]
    refine event_told hset hf hb fun n hn => ?_
    simp only [Callback.map, Text.content, hn, Int32.toInt32_toUInt32]
  | eventRemove name id =>
    obtain ⟨hf, hwb⟩ := eventOnly_bytes (by decide) h
    rw [hwb]
    refine fun hm => clientJob_received hm fun rb hb => ?_
    obtain ⟨hset, hcb⟩ := Option.ite_none_right_eq_some.mp ho
    rw [← Option.some.inj hcb]
    refine event_told hset hf hb fun n hn => ?_
    simp only [Callback.map, Text.content, hn, Int32.toInt32_toUInt32]
  | eventPush name id data =>
    obtain ⟨t, ht, hf, hwb⟩ := push_bytes h
    rw [hwb]
    refine fun hm => clientJob_received hm fun rb hb => ?_
    obtain ⟨hset, hcb⟩ := Option.ite_none_right_eq_some.mp ho
    refine onRead_told hset (refines_pushRead jc) hb (parsePush_write hjson _ hf ht) ?_
    rintro ⟨⟨i, n⟩, o⟩ ⟨⟨hi, hn⟩, hdata⟩
    dsimp only at hi hn hdata
    rw [← Option.some.inj hcb]
    simp only [Callback.map, Text.content, hi, hn, hdata, Int32.toInt32_toUInt32]
  | eventBroadcast name data =>
    obtain ⟨t, ht, hf, hwb⟩ := broadcast_bytes h
    rw [hwb]
    refine fun hm => clientJob_received hm fun rb hb => ?_
    obtain ⟨hset, hcb⟩ := Option.ite_none_right_eq_some.mp ho
    refine onRead_told hset (refines_broadcastRead jc) hb (parseBroadcast_write hjson hf ht) ?_
    rintro ⟨n, o⟩ ⟨hn, hdata⟩
    dsimp only at hn hdata
    rw [← Option.some.inj hcb]
    simp only [Callback.map, Text.content, hn, hdata]
  | describe descid =>
    rw [describe_bytes h]
    refine fun hm => serverJob_received hm fun rb hb => ?_
    obtain ⟨hset, hcb⟩ := Option.ite_none_right_eq_some.mp ho
    rw [← Option.some.inj hcb]
    exact describe_told hset hb
  | description descid descobj =>
    obtain ⟨t, ht, hwb⟩ := description_bytes h
    rw [hwb]
    refine fun hm => clientJob_received hm fun rb hb => ?_
    obtain ⟨desc, hs, hcb⟩ := Option.map_eq_some_iff.mp ho
    rw [← hcb]
    exact description_told hs (parseObject_write hjson ht.1 ht.2) hb

theorem message_round_trip_sample :
    let m : Message (Option Bool ⊕ Bytes) :=
      .reply 7 (.inl (some true)) none (some ⟨[111, 107], by decide⟩)
    let p : Protows := ⟨⟨true, true, true, true, true, true, true⟩, [⟨1, 5, 7⟩], []⟩
    ∃ wb, m.encode booleans = some wb ∧
      Tells (memoryOf 100 wb.flatten) (.onReply 5 (.inl (some true)) none (some [111, 107]))
        (m.deliver (memoryOf 100 wb.flatten) booleans p (received 100 wb.flatten.length)) := by
  intro m p
  have hjson : ∀ j t, booleans.print j = some t → booleans.parse t.1 = some j := by
    rintro ((_ | _ | _) | s) t h <;> cases h <;> decide
  obtain ⟨-, h⟩ := message_round_trip booleans hjson p m
    (.onReply 5 (.inl (some true)) none (some [111, 107])) rfl
  exact ⟨_, rfl, h _ rfl _ 100 (holds_memoryOf 100 _)⟩

end AfbBinder.ProtoWs
