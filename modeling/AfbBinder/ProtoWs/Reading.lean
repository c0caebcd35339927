import AfbBinder.ProtoWs.Messages

/-! The sequences of fields that the handlers read: each stays in the buffer and does what
a parser of the bytes of the message says. -/
namespace AfbBinder.ProtoWs
open Lib.Cstrings Lib.Reader
variable {J : Type}

def parseEvent : Parser (UInt32 × Bytes) := do
  let eventId ← parseUint32
  let name ← parseString
  pure (eventId, name)

def parseCall (p : Protows) : Parser ClientCall := do
  let callid ← parseUint32
  match clientCallSearch p callid with
  | some call => pure call
  | none => failure

def parseCallEvent (p : Protows) : Parser (ClientCall × UInt32 × Bytes) := do
  let call ← parseCall p
  let event ← parseEvent
  pure (call, event)

def parseBroadcast (jc : Jsonc J) : Parser (Bytes × J) := do
  let name ← parseString
  let object ← parseObject jc
  pure (name, object)

def parsePush (jc : Jsonc J) : Parser ((UInt32 × Bytes) × J) := do
  let event ← parseEvent
  let object ← parseObject jc
  pure (event, object)

def parseReply (jc : Jsonc J) : Parser (Option Bytes × Option Bytes × J) := do
  let error ← parseNullstring
  let info ← parseNullstring
  let object ← parseObject jc
  pure (error, info, object)

def parseCallMessage (jc : Jsonc J) : Parser (UInt32 × Bytes × Bytes × J × Option Bytes) := do
  let callid ← parseUint32
  let verb ← parseString
  let uuid ← parseString
  let object ← parseObject jc
  let userCreds ← parseNullstring
  pure (callid, verb, uuid, object, userCreds)

section
variable {mem : Memory} {base stop : Nat}

theorem safe_clientMsgEventRead :
    Safe base stop (clientMsgEventRead mem) fun r => r.2.Terminated mem base stop :=
  safe_bind safe_readbufUint32 fun _ _ =>
    safe_bind safe_readbufString fun _ hname => safe_pure hname

theorem safe_clientMsgCallGet (p : Protows) :
    Safe base stop (clientMsgCallGet mem p) fun _ => True := by
  refine safe_bind safe_readbufUint32 fun callid _ => ?_
  cases clientCallSearch p callid with
  | some call => exact safe_pure trivial
  | none => exact safe_fail

theorem safe_callEventRead (p : Protows) :
    Safe base stop (callEventRead mem p) fun r => r.2.2.Terminated mem base stop :=
  safe_bind (safe_clientMsgCallGet p) fun _ _ =>
    safe_bind safe_clientMsgEventRead fun _ hname => safe_pure hname

theorem safe_broadcastRead (jc : Jsonc J) :
    Safe base stop (broadcastRead mem jc) fun r => r.1.Terminated mem base stop :=
  safe_bind safe_readbufString fun _ hname =>
    safe_bind (safe_readbufObject jc) fun _ _ => safe_pure hname

theorem safe_pushRead (jc : Jsonc J) :
    Safe base stop (pushRead mem jc) fun r => r.1.2.Terminated mem base stop :=
  safe_bind safe_clientMsgEventRead fun _ hname =>
    safe_bind (safe_readbufObject jc) fun _ _ => safe_pure hname

theorem safe_replyRead (jc : Jsonc J) :
    Safe base stop (replyRead mem jc) fun r =>
      (∀ s ∈ r.1, s.Terminated mem base stop) ∧ ∀ s ∈ r.2.1, s.Terminated mem base stop :=
  safe_bind (safe_readbufStringOr true) fun _ herror =>
    safe_bind (safe_readbufStringOr true) fun _ hinfo =>
      safe_bind (safe_readbufObject jc) fun _ _ => safe_pure ⟨herror, hinfo⟩

theorem safe_callRead (jc : Jsonc J) :
    Safe base stop (callRead mem jc) fun r =>
      r.2.1.Terminated mem base stop ∧ r.2.2.1.Terminated mem base stop ∧
        ∀ s ∈ r.2.2.2.2, s.Terminated mem base stop :=
  safe_bind safe_readbufUint32 fun _ _ =>
    safe_bind safe_readbufString fun _ hverb =>
      safe_bind safe_readbufString fun _ huuid =>
        safe_bind (safe_readbufObject jc) fun _ _ =>
          safe_bind (safe_readbufStringOr true) fun _ hcreds => safe_pure ⟨hverb, huuid, hcreds⟩

theorem refines_clientMsgEventRead :
    Refines mem (clientMsgEventRead mem) parseEvent
      fun x y => x.1 = y.1 ∧ x.2.content mem = y.2 :=
  refines_bind refines_readbufUint32 fun _ _ hid =>
    refines_bind refines_readbufString fun _ _ hname => refines_pure ⟨hid, hname⟩

theorem refines_clientMsgCallGet (p : Protows) :
    Refines mem (clientMsgCallGet mem p) (parseCall p) (· = ·) := by
  refine refines_bind refines_readbufUint32 fun callid _ hid => ?_
  subst hid
  cases clientCallSearch p callid with
  | some call => exact refines_pure rfl
  | none => exact refines_fail

theorem refines_callEventRead (p : Protows) :
    Refines mem (callEventRead mem p) (parseCallEvent p)
      fun x y => x.1 = y.1 ∧ x.2.1 = y.2.1 ∧ x.2.2.content mem = y.2.2 :=
  refines_bind (refines_clientMsgCallGet p) fun _ _ hcall =>
    refines_bind refines_clientMsgEventRead fun _ _ hevent => refines_pure ⟨hcall, hevent⟩

theorem refines_broadcastRead (jc : Jsonc J) :
    Refines mem (broadcastRead mem jc) (parseBroadcast jc)
      fun x y => x.1.content mem = y.1 ∧ x.2 = y.2 :=
  refines_bind refines_readbufString fun _ _ hname =>
    refines_bind (refines_readbufObject jc) fun _ _ hobject => refines_pure ⟨hname, hobject⟩

theorem refines_pushRead (jc : Jsonc J) :
    Refines mem (pushRead mem jc) (parsePush jc)
      fun x y => (x.1.1 = y.1.1 ∧ x.1.2.content mem = y.1.2) ∧ x.2 = y.2 :=
  refines_bind refines_clientMsgEventRead fun _ _ hevent =>
    refines_bind (refines_readbufObject jc) fun _ _ hobject => refines_pure ⟨hevent, hobject⟩

theorem refines_replyRead (jc : Jsonc J) :
    Refines mem (replyRead mem jc) (parseReply jc)
      fun x y => x.1.map (Str.content mem) = y.1 ∧ x.2.1.map (Str.content mem) = y.2.1 ∧
        x.2.2 = y.2.2 :=
  refines_bind (refines_readbufStringOr true) fun _ _ herror =>
    refines_bind (refines_readbufStringOr true) fun _ _ hinfo =>
      refines_bind (refines_readbufObject jc) fun _ _ hobject =>
        refines_pure ⟨herror, hinfo, hobject⟩

theorem refines_callRead (jc : Jsonc J) :
    Refines mem (callRead mem jc) (parseCallMessage jc)
      fun x y => x.1 = y.1 ∧ x.2.1.content mem = y.2.1 ∧ x.2.2.1.content mem = y.2.2.1 ∧
        x.2.2.2.1 = y.2.2.2.1 ∧ x.2.2.2.2.map (Str.content mem) = y.2.2.2.2 :=
  refines_bind refines_readbufUint32 fun _ _ hid =>
    refines_bind refines_readbufString fun _ _ hverb =>
      refines_bind refines_readbufString fun _ _ huuid =>
        refines_bind (refines_readbufObject jc) fun _ _ hobject =>
          refines_bind (refines_readbufStringOr true) fun _ _ hcreds =>
            refines_pure ⟨hid, hverb, huuid, hobject, hcreds⟩

/-- A memory with these bytes at the address. -/
def memoryOf (base : Nat) (b : Bytes) : Memory := fun a => b.getD (a - base) 0

theorem holds_memoryOf (base : Nat) (b : Bytes) :
    Holds (memoryOf base b) (received base b.length) b where
  size := rfl
  bytes i hi := by
    simp [memoryOf, received, hi]

/-- The kind of the message is its first byte. -/
theorem readKind_received {b : Bytes} {c : UInt8}
    (h : Holds mem (received base (c :: b).length) (c :: b)) :
    (readKind mem (received base (c :: b).length)).1 = c ∧
      Holds mem (readKind mem (received base (c :: b).length)).2 b :=
  ⟨h.bytes 0 (by simp), h.drop (n := 1) (by simp) _⟩

end

/-- A library of json restricted to null and booleans. -/
def booleans : Jsonc (Option Bool ⊕ Bytes) where
  null := .inl none
  print
    | .inl none => some ⟨[110, 117, 108, 108], by decide⟩
    | .inl (some true) => some ⟨[116, 114, 117, 101], by decide⟩
    | .inl (some false) => some ⟨[102, 97, 108, 115, 101], by decide⟩
    | .inr _ => none
  parse text :=
    if text = [110, 117, 108, 108] then some (.inl none)
    else if text = [116, 114, 117, 101] then some (.inl (some true))
    else if text = [102, 97, 108, 115, 101] then some (.inl (some false))
    else none
  newString := .inr

end AfbBinder.ProtoWs
