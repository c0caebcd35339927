import AfbBinder.ProtoWs.Reading

/-! What the processing of any received bytes can do: the layouts of the messages, and the
callbacks that remain possible when the bytes do not follow them. -/
namespace AfbBinder.ProtoWs
open Lib.Cstrings Lib.Reader
variable {J : Type}

inductive Field where
  | word
  | string
  | nullstring
  deriving DecidableEq, Repr

/-- What a field leaves: a string counts its bytes and ends with its terminator, only a
nullstring may have the length 0. -/
def Field.skip : Field → Bytes → Option Bytes
  | word, b => (parseUint32 b).map (·.2)
  | string, b => (parseStringOr false b).map (·.2)
  | nullstring, b => (parseStringOr true b).map (·.2)

def skipFields : List Field → Bytes → Option Bytes
  | [], b => some b
  | f :: fs, b => (f.skip b).bind (skipFields fs)

/-- The fields of the messages to the client. -/
def clientLayout (kind : UInt8) : Option (List Field) :=
  if kind = CHAR_FOR_REPLY then some [.word, .nullstring, .nullstring, .string]
  else if kind = CHAR_FOR_EVT_BROADCAST then some [.string, .string]
  else if kind = CHAR_FOR_EVT_ADD then some [.word, .string]
  else if kind = CHAR_FOR_EVT_DEL then some [.word, .string]
  else if kind = CHAR_FOR_EVT_PUSH then some [.word, .string, .string]
  else if kind = CHAR_FOR_EVT_SUBSCRIBE then some [.word, .word, .string]
  else if kind = CHAR_FOR_EVT_UNSUBSCRIBE then some [.word, .word, .string]
  else if kind = CHAR_FOR_DESCRIPTION then some [.word, .string]
  else none

/-- The fields of the messages to the server. -/
def serverLayout (kind : UInt8) : Option (List Field) :=
  if kind = CHAR_FOR_CALL then some [.word, .string, .string, .string, .nullstring]
  else if kind = CHAR_FOR_DESCRIBE then some [.word]
  else none

/-- The kind is known and its fields all fit. -/
def wellFormed (layout : UInt8 → Option (List Field)) : Bytes → Bool
  | [] => false
  | kind :: b => ((layout kind).bind (skipFields · b)).isSome

/-- The strings given to the callback. -/
def Callback.strings {S : Type} : Callback J S → List S
  | .onReply _ _ error info => error.toList ++ info.toList
  | .onEventCreate name _ | .onEventRemove name _ => [name]
  | .onEventSubscribe _ name _ | .onEventUnsubscribe _ name _ => [name]
  | .onEventPush name _ _ | .onEventBroadcast name _ => [name]
  | .onDescription _ _ | .onDescribe _ => []
  | .onCall _ verb _ uuid creds => verb :: uuid :: creds.toList

/-- The callbacks for a message that can not be read: the error reply of a known call and
the NULL description of a known request. -/
def Fallback (jc : Jsonc J) (p : Protows) : Bytes → Callback J Text → Prop
  | [], _ => False
  | kind :: b, cb => ∃ id rest, parseUint32 b = some (id, rest) ∧
    ((kind = CHAR_FOR_REPLY ∧ ∃ call, clientCallSearch p id = some call ∧
        cb = .onReply call.request jc.null (some (.lit protoError)) (some (.lit cantProcess))) ∨
      (kind = CHAR_FOR_DESCRIPTION ∧ ∃ desc, p.describes.find? (·.descid = id) = some desc ∧
        cb = .onDescription desc.closure jc.null))

/-- The strings given to the callback end in the buffer with their terminator. -/
def InBuffer (mem : Memory) (base stop : Nat) (cb : Callback J Text) : Prop :=
  ∀ s ∈ cb.strings, ∃ x, s = .buf x ∧ x.Terminated mem base stop

/-- A job read within the buffer and made at most one callback, with strings of the buffer
unless it is a fallback. -/
structure Contained (mem : Memory) (base stop : Nat) (fallback : Callback J Text → Prop)
    (o : Outcome J) : Prop where
  reads : ∀ a ∈ o.rb.reads, base ≤ a ∧ a < stop
  once : o.callbacks.length ≤ 1
  strings : ∀ cb ∈ o.callbacks, InBuffer mem base stop cb ∨ fallback cb

/-- The parser succeeds only on bytes that have these fields, and leaves what they leave. -/
private def Needs {α : Type} (q : Parser α) (fs : List Field) : Prop :=
  ∀ b y rest, q b = some (y, rest) → skipFields fs b = some rest

section
variable {α β : Type}

private theorem needs_pure (x : α) : Needs (pure x) [] := by
  intro b y rest h
  cases h
  rfl

private theorem needs_failure : Needs (failure : Parser α) [] := by
  intro b y rest h
  cases h

private theorem skipFields_append (fs gs : List Field) (b : Bytes) :
    skipFields (fs ++ gs) b = (skipFields fs b).bind (skipFields gs) := by
  induction fs generalizing b with
  | nil => rfl
  | cons f fs ih =>
    simp only [List.cons_append, skipFields, Option.bind_assoc]
    congr 1
    funext rest
    exact ih rest

private theorem needs_bind {q : Parser α} {f : α → Parser β} {fs gs : List Field}
    (hq : Needs q fs) (hf : ∀ y, Needs (f y) gs) : Needs (q >>= f) (fs ++ gs) := by
  intro b z rest h
  rw [parser_bind] at h
  obtain ⟨⟨y, rest'⟩, hy, hz⟩ := Option.bind_eq_some_iff.mp h
  rw [skipFields_append, hq b y rest' hy, Option.bind_some]
  exact hf y rest' z rest hz

end

private theorem needs_skip {α : Type} {q : Parser α} {f : Field}
    (h : ∀ b, f.skip b = (q b).map (·.2)) : Needs q [f] := by
  intro b y rest hq
  simp only [skipFields, h, hq, Option.map_some, Option.bind_some]

private theorem needs_uint32 : Needs parseUint32 [.word] := needs_skip fun _ => rfl

private theorem needs_nullstring : Needs parseNullstring [.nullstring] := needs_skip fun _ => rfl

private theorem needs_string : Needs parseString [.string] := by
  refine needs_bind (needs_skip (f := .string) fun _ => rfl) fun y => ?_
  cases y with
  | none => exact needs_failure
  | some y => exact needs_pure y

private theorem needs_object (jc : Jsonc J) : Needs (parseObject jc) [.string] :=
  needs_bind needs_string fun _ => needs_pure _

private theorem needs_event : Needs parseEvent [.word, .string] :=
  needs_bind needs_uint32 fun _ => needs_bind needs_string fun _ => needs_pure _

private theorem needs_call (p : Protows) : Needs (parseCall p) [.word] := by
  refine needs_bind needs_uint32 fun callid => ?_
  cases clientCallSearch p callid with
  | none => exact needs_failure
  | some call => exact needs_pure call

private theorem needs_callEvent (p : Protows) : Needs (parseCallEvent p) [.word, .word, .string] :=
  needs_bind (needs_call p) fun _ => needs_bind needs_event fun _ => needs_pure _

private theorem needs_broadcast (jc : Jsonc J) : Needs (parseBroadcast jc) [.string, .string] :=
  needs_bind needs_string fun _ => needs_bind (needs_object jc) fun _ => needs_pure _

private theorem needs_push (jc : Jsonc J) : Needs (parsePush jc) [.word, .string, .string] :=
  needs_bind needs_event fun _ => needs_bind (needs_object jc) fun _ => needs_pure _

private theorem needs_reply (jc : Jsonc J) :
    Needs (parseReply jc) [.nullstring, .nullstring, .string] :=
  needs_bind needs_nullstring fun _ =>
    needs_bind needs_nullstring fun _ => needs_bind (needs_object jc) fun _ => needs_pure _

private theorem needs_callMessage (jc : Jsonc J) :
    Needs (parseCallMessage jc) [.word, .string, .string, .string, .nullstring] :=
  needs_bind needs_uint32 fun _ => needs_bind needs_string fun _ =>
    needs_bind needs_string fun _ => needs_bind (needs_object jc) fun _ =>
      needs_bind needs_nullstring fun _ => needs_pure _

/-! The handlers, on the bytes after the kind. -/

section
variable {mem : Memory} {jc : Jsonc J} {p : Protows} {base stop : Nat} {rb : Window} {b : Bytes}
  {fallback : Callback J Text → Prop}

/-- The outcome is contained and is a fallback when the fields do not fit. -/
private def Handles (mem : Memory) (base stop : Nat) (fallback : Callback J Text → Prop)
    (fs : List Field) (b : Bytes) (o : Outcome J) : Prop :=
  Contained mem base stop fallback o ∧
    (skipFields fs b = none → ∀ cb ∈ o.callbacks, fallback cb)

private theorem contained_silent {sent : List Writebuf} (hin : Within base stop rb) :
    Contained mem base stop fallback (⟨[], p, rb, sent⟩ : Outcome J) :=
  ⟨hin.reads, Nat.zero_le 1, fun _ h => by cases h⟩

private theorem handles_silent {fs : List Field} {sent : List Writebuf} (hin : Within base stop rb) :
    Handles mem base stop fallback fs b (⟨[], p, rb, sent⟩ : Outcome J) :=
  ⟨contained_silent hin, fun _ _ h => by cases h⟩

private theorem handles_one {fs : List Field} {cb : Callback J Text} {p' : Protows}
    {sent : List Writebuf} (hin : Within base stop rb)
    (hs : InBuffer mem base stop cb ∨ fallback cb) (hf : skipFields fs b = none → fallback cb) :
    Handles mem base stop fallback fs b (⟨[cb], p', rb, sent⟩ : Outcome J) := by
  refine ⟨⟨hin.reads, Nat.le_refl 1, fun x hx => ?_⟩, fun hn x hx => ?_⟩
  · rwa [List.mem_singleton.mp hx]
  · rw [List.mem_singleton.mp hx]
    exact hf hn

private theorem Needs.not_none {α : Type} {q : Parser α} {fs : List Field} (h : Needs q fs)
    {y : α} {rest : Bytes} (hq : q b = some (y, rest)) : skipFields fs b ≠ none := by
  rw [h b y rest hq]
  exact Option.some_ne_none rest

private theorem onRead_handles {α β : Type} {read : Rd α} {q : Parser β} {R : α → β → Prop}
    {P : α → Prop} {callback : α → Callback J Text} {set : Bool} {fs : List Field}
    (hs : Safe base stop read P) (hr : Refines mem read q R) (hn : Needs q fs)
    (hcb : ∀ x, P x → InBuffer mem base stop (callback x))
    (hin : Within base stop rb) (hb : Holds mem rb b) :
    Handles mem base stop fallback fs b (onRead p set read callback rb) := by
  unfold onRead
  split
  · dsimp only
    obtain ⟨hin', hP⟩ := hs rb hin
    cases hq : q b with
    | none =>
      rw [(hr rb b hb).1 hq]
      exact handles_silent hin'
    | some r =>
      obtain ⟨x, rb', hx, -, -⟩ := (hr rb b hb).2 r.1 r.2 hq
      rw [hx] at hin' hP ⊢
      exact handles_one hin' (.inl (hcb x (hP x rfl))) fun h => absurd h (hn.not_none hq)
  · exact handles_silent hin

private theorem inBuffer_name {x : Str} {cb : Callback J Text} (hcb : cb.strings = [.buf x])
    (h : x.Terminated mem base stop) : InBuffer mem base stop cb := by
  intro s hs
  rw [hcb] at hs
  exact ⟨x, List.mem_singleton.mp hs, h⟩

private theorem terminated_of_option {x : Option Str} (h : ∀ s ∈ x, s.Terminated mem base stop)
    {t : Text} (ht : t ∈ (x.map Text.buf).toList) : ∃ s, t = .buf s ∧ s.Terminated mem base stop := by
  cases x with
  | none => cases ht
  | some x => exact ⟨x, List.mem_singleton.mp ht, h x rfl⟩

private theorem parseCall_some {call : ClientCall} {rest : Bytes}
    (h : parseCall p b = some (call, rest)) :
    ∃ id, parseUint32 b = some (id, rest) ∧ clientCallSearch p id = some call := by
  rw [parseCall, parser_bind] at h
  obtain ⟨⟨id, rest'⟩, hid, h⟩ := Option.bind_eq_some_iff.mp h
  cases hs : clientCallSearch p id with
  | none =>
    simp only [hs] at h
    cases h
  | some call' =>
    simp only [hs] at h
    cases h
    exact ⟨id, hid, hs⟩

private theorem clientOnReply_handles (hin : Within base stop rb) (hb : Holds mem rb b) :
    Handles mem base stop (Fallback jc p (CHAR_FOR_REPLY :: b))
      [.word, .nullstring, .nullstring, .string] b (clientOnReply mem jc p rb) := by
  obtain ⟨hin₁, -⟩ := safe_clientMsgCallGet p rb hin
  obtain ⟨hnone, hsome⟩ := refines_clientMsgCallGet p rb b hb
  cases hq : parseCall p b with
  | none =>
    cases h : clientMsgCallGet mem p rb with
    | mk r rb₁ =>
      rw [h] at hnone hin₁
      cases hnone hq
      simp only [clientOnReply, h]
      exact handles_silent hin₁
  | some r =>
    obtain ⟨call, rest⟩ := r
    obtain ⟨x, rb₁, hx, rfl, hb₁⟩ := hsome call rest hq
    rw [hx] at hin₁
    simp only [clientOnReply, hx]
    obtain ⟨id, hid, hsearch⟩ := parseCall_some hq
    have hfall : Fallback jc p (CHAR_FOR_REPLY :: b) (.onReply x.request jc.null
        (some (.lit protoError)) (some (.lit cantProcess))) :=
      ⟨id, rest, hid, .inl ⟨rfl, x, hsearch, rfl⟩⟩
    obtain ⟨hin₂, hP⟩ := safe_replyRead jc rb₁ hin₁
    cases hq₂ : parseReply jc rest with
    | none =>
      rw [(refines_replyRead jc rb₁ rest hb₁).1 hq₂]
      exact handles_one hin₂ (.inr hfall) fun _ => hfall
    | some r =>
      obtain ⟨⟨error, info, object⟩, rb₂, hr, -, -⟩ :=
        (refines_replyRead jc rb₁ rest hb₁).2 r.1 r.2 hq₂
      rw [hr] at hin₂ hP ⊢
      obtain ⟨herror, hinfo⟩ := hP _ rfl
      have hall : (parseCall p >>= fun _ => parseReply jc) b = some r := by
        rw [parser_bind, hq, Option.bind_some, hq₂]
      refine handles_one hin₂ (.inl fun s hs => ?_) fun h =>
        absurd h ((needs_bind (needs_call p) fun _ => needs_reply jc).not_none hall)
      rcases List.mem_append.mp hs with hs | hs
      · exact terminated_of_option herror hs
      · exact terminated_of_option hinfo hs

private theorem clientOnDescription_handles (hin : Within base stop rb) (hb : Holds mem rb b) :
    Handles mem base stop (Fallback jc p (CHAR_FOR_DESCRIPTION :: b)) [.word, .string] b
      (clientOnDescription mem jc p rb) := by
  obtain ⟨hin₁, -⟩ := (safe_readbufUint32 : Safe base stop (readbufUint32 mem) _) rb hin
  obtain ⟨hnone, hsome⟩ := refines_readbufUint32 rb b hb
  cases hq : parseUint32 b with
  | none =>
    cases h : readbufUint32 mem rb with
    | mk r rb₁ =>
      rw [h] at hnone hin₁
      cases hnone hq
      simp only [clientOnDescription, h]
      exact handles_silent hin₁
  | some r =>
    obtain ⟨descid, rest⟩ := r
    obtain ⟨x, rb₁, hx, rfl, hb₁⟩ := hsome descid rest hq
    rw [hx] at hin₁
    simp only [clientOnDescription, hx]
    cases hd : p.describes.find? (·.descid = x) with
    | none => exact handles_silent hin₁
    | some desc =>
      have hfall : Fallback jc p (CHAR_FOR_DESCRIPTION :: b) (.onDescription desc.closure jc.null) :=
        ⟨x, rest, hq, .inr ⟨rfl, desc, hd, rfl⟩⟩
      obtain ⟨hin₂, -⟩ := (safe_readbufObject jc : Safe base stop (readbufObject mem jc) _) rb₁ hin₁
      refine handles_one hin₂ (.inl fun _ h => (by cases h)) fun h => ?_
      have hq₂ : parseObject jc rest = none := by
        cases hq₂ : parseObject jc rest with
        | none => rfl
        | some r =>
          have hall : (parseUint32 >>= fun _ => parseObject jc) b = some r := by
            rw [parser_bind, hq, Option.bind_some, hq₂]
          exact absurd h ((needs_bind needs_uint32 fun _ => needs_object jc).not_none hall)
      rw [(refines_readbufObject jc rb₁ rest hb₁).1 hq₂]
      exact hfall

private theorem clientOnKind_handles (kind : UInt8) {fs : List Field}
    (hfs : clientLayout kind = some fs) (hin : Within base stop rb) (hb : Holds mem rb b) :
    Handles mem base stop (Fallback jc p (kind :: b)) fs b (clientOnKind mem jc p kind rb) := by
  unfold clientLayout at hfs
  unfold clientOnKind
  split_ifs at hfs with h₁ h₂ h₃ h₄ h₅ h₆ h₇ h₈
  · rw [if_pos h₁, h₁, ← Option.some.inj hfs]
    exact clientOnReply_handles hin hb
  · rw [if_neg h₁, if_pos h₂, ← Option.some.inj hfs]
    exact onRead_handles (safe_broadcastRead jc) (refines_broadcastRead jc) (needs_broadcast jc)
      (fun _ h => inBuffer_name rfl h) hin hb
  · rw [if_neg h₁, if_neg h₂, if_pos h₃, ← Option.some.inj hfs]
    exact onRead_handles safe_clientMsgEventRead refines_clientMsgEventRead needs_event
      (fun _ h => inBuffer_name rfl h) hin hb
  · rw [if_neg h₁, if_neg h₂, if_neg h₃, if_pos h₄, ← Option.some.inj hfs]
    exact onRead_handles safe_clientMsgEventRead refines_clientMsgEventRead needs_event
      (fun _ h => inBuffer_name rfl h) hin hb
  · rw [if_neg h₁, if_neg h₂, if_neg h₃, if_neg h₄, if_pos h₅, ← Option.some.inj hfs]
    exact onRead_handles (safe_pushRead jc) (refines_pushRead jc) (needs_push jc)
      (fun _ h => inBuffer_name rfl h) hin hb
  · rw [if_neg h₁, if_neg h₂, if_neg h₃, if_neg h₄, if_neg h₅, if_pos h₆, ← Option.some.inj hfs]
    exact onRead_handles (safe_callEventRead p) (refines_callEventRead p) (needs_callEvent p)
      (fun _ h => inBuffer_name rfl h) hin hb
  · rw [if_neg h₁, if_neg h₂, if_neg h₃, if_neg h₄, if_neg h₅, if_neg h₆, if_pos h₇,
      ← Option.some.inj hfs]
    exact onRead_handles (safe_callEventRead p) (refines_callEventRead p) (needs_callEvent p)
      (fun _ h => inBuffer_name rfl h) hin hb
  · rw [if_neg h₁, if_neg h₂, if_neg h₃, if_neg h₄, if_neg h₅, if_neg h₆, if_neg h₇, if_pos h₈, h₈,
      ← Option.some.inj hfs]
    exact clientOnDescription_handles hin hb

private theorem serverOnCall_handles {alloc : Bool} (hin : Within base stop rb) (hb : Holds mem rb b) :
    Handles mem base stop fallback [.word, .string, .string, .string, .nullstring] b
      (serverOnCall mem jc p alloc rb) := by
  obtain ⟨hin', hP⟩ := safe_callRead jc rb hin
  unfold serverOnCall
  dsimp only
  cases hq : parseCallMessage jc b with
  | none =>
    rw [(refines_callRead jc rb b hb).1 hq]
    exact handles_silent hin'
  | some r =>
    obtain ⟨⟨callid, verb, uuid, object, creds⟩, rb', hx, -, -⟩ :=
      (refines_callRead jc rb b hb).2 r.1 r.2 hq
    rw [hx] at hin' hP ⊢
    obtain ⟨hverb, huuid, hcreds⟩ := hP _ rfl
    cases alloc with
    | false => exact handles_silent hin'
    | true =>
      refine handles_one hin' (.inl fun s hs => ?_) fun h =>
        absurd h ((needs_callMessage jc).not_none hq)
      rcases List.mem_cons.mp hs with rfl | hs
      · exact ⟨verb, rfl, hverb⟩
      rcases List.mem_cons.mp hs with rfl | hs
      · exact ⟨uuid, rfl, huuid⟩
      · exact terminated_of_option hcreds hs

private theorem serverOnDescribe_handles {alloc : Bool} (hin : Within base stop rb)
    (hb : Holds mem rb b) :
    Handles mem base stop fallback [.word] b (serverOnDescribe mem jc p alloc rb) := by
  obtain ⟨hin', -⟩ := (safe_readbufUint32 : Safe base stop (readbufUint32 mem) _) rb hin
  obtain ⟨hnone, hsome⟩ := refines_readbufUint32 rb b hb
  unfold serverOnDescribe
  cases hq : parseUint32 b with
  | none =>
    cases h : readbufUint32 mem rb with
    | mk r rb₁ =>
      rw [h] at hnone hin'
      cases hnone hq
      exact handles_silent hin'
  | some r =>
    obtain ⟨x, rb₁, hx, -, -⟩ := hsome r.1 r.2 hq
    rw [hx] at hin' ⊢
    dsimp only
    split
    · exact handles_one hin' (.inl fun _ h => (by cases h)) fun h =>
        absurd h (needs_uint32.not_none hq)
    · exact handles_silent hin'

end

section
variable {mem : Memory} {jc : Jsonc J} {p : Protows} {base : Nat} {kind : UInt8} {b : Bytes}

private theorem within_readKind :
    Within base (base + (kind :: b).length) (readKind mem (received base (kind :: b).length)).2 := by
  have hlen : (kind :: b).length = b.length + 1 := rfl
  refine ⟨rfl, rfl, Nat.le_add_right base 1, ?_, fun a ha => ?_⟩
  · change base + 1 ≤ base + (kind :: b).length
    omega
  · cases List.mem_singleton.mp ha
    change base ≤ base ∧ base < base + (kind :: b).length
    omega

private theorem kind_contained {layout : UInt8 → Option (List Field)}
    {onKind : Window → Outcome J} {F : Callback J Text → Prop}
    (hm : Holds mem (received base (kind :: b).length) (kind :: b))
    (hnone : layout kind = none → ∀ rb, onKind rb = ⟨[], p, rb, []⟩)
    (hsome : ∀ fs rb, layout kind = some fs → Within base (base + (kind :: b).length) rb →
      Holds mem rb b → Handles mem base (base + (kind :: b).length) F fs b (onKind rb)) :
    let o := onKind (readKind mem (received base (kind :: b).length)).2
    Contained mem base (base + (kind :: b).length) F o ∧
      (wellFormed layout (kind :: b) = false → ∀ cb ∈ o.callbacks, F cb) := by
  obtain ⟨-, hb⟩ := readKind_received hm
  have hin : Within base (base + (kind :: b).length)
      (readKind mem (received base (kind :: b).length)).2 := within_readKind
  cases hl : layout kind with
  | none =>
    rw [hnone hl]
    exact ⟨contained_silent hin, fun _ _ h => by cases h⟩
  | some fs =>
    obtain ⟨hc, hn⟩ := hsome fs _ hl hin hb
    refine ⟨hc, fun hw => hn ?_⟩
    rw [wellFormed, hl, Option.bind_some] at hw
    exact Option.isNone_iff_eq_none.mp (Option.isSome_eq_false_iff.mp hw)

private theorem clientOnKind_unknown (h : clientLayout kind = none) (rb : Window) :
    clientOnKind mem jc p kind rb = ⟨[], p, rb, []⟩ := by
  unfold clientLayout at h
  split_ifs at h with h₁ h₂ h₃ h₄ h₅ h₆ h₇ h₈
  simp only [clientOnKind, if_neg h₁, if_neg h₂, if_neg h₃, if_neg h₄, if_neg h₅, if_neg h₆,
    if_neg h₇, if_neg h₈]

private theorem serverOnKind_unknown {alloc : Bool} (h : serverLayout kind = none) (rb : Window) :
    serverOnKind mem jc p alloc kind rb = ⟨[], p, rb, []⟩ := by
  unfold serverLayout at h
  split_ifs at h with h₁ h₂
  simp only [serverOnKind, if_neg h₁, if_neg h₂]

private theorem serverOnKind_handles {alloc : Bool} {fs : List Field} {stop : Nat} {rb : Window}
    {fallback : Callback J Text → Prop} (hfs : serverLayout kind = some fs)
    (hin : Within base stop rb) (hb : Holds mem rb b) :
    Handles mem base stop fallback fs b (serverOnKind mem jc p alloc kind rb) := by
  unfold serverLayout at hfs
  unfold serverOnKind
  split_ifs at hfs with h₁ h₂
  · rw [if_pos h₁, ← Option.some.inj hfs]
    exact serverOnCall_handles hin hb
  · rw [if_neg h₁, if_pos h₂, ← Option.some.inj hfs]
    exact serverOnDescribe_handles hin hb

end

/-- Whatever the bytes received, both jobs read within the buffer and make at most one
callback, with strings that end in the buffer. A message without all its fields can only
reach a fallback of the client. -/
theorem received_contained (mem : Memory) (jc : Jsonc J) (p : Protows) (sig : Nat) (alloc : Bool)
    (base : Nat) (b : Bytes) (hne : b ≠ []) (hm : Holds mem (received base b.length) b) :
    let c := clientOnBinaryJob mem jc p sig (received base b.length)
    let s := serverOnBinaryJob mem jc p sig alloc (received base b.length)
    (Contained mem base (base + b.length) (Fallback jc p b) c ∧
      (wellFormed clientLayout b = false → ∀ cb ∈ c.callbacks, Fallback jc p b cb)) ∧
    Contained mem base (base + b.length) (fun _ => False) s ∧
      (wellFormed serverLayout b = false → s.callbacks = []) := by
  cases b with
  | nil => exact absurd rfl hne
  | cons kind b =>
    by_cases hsig : sig = 0
    · subst hsig
      obtain ⟨hkind, -⟩ := readKind_received hm
      have hc : clientOnBinaryJob mem jc p 0 (received base (kind :: b).length) =
          clientOnKind mem jc p kind (readKind mem (received base (kind :: b).length)).2 := by
        rw [← hkind]
        rfl
      have hs : serverOnBinaryJob mem jc p 0 alloc (received base (kind :: b).length) =
          serverOnKind mem jc p alloc kind (readKind mem (received base (kind :: b).length)).2 := by
        rw [← hkind]
        rfl
      rw [hc, hs]
      refine ⟨kind_contained hm clientOnKind_unknown fun fs rb => clientOnKind_handles kind, ?_⟩
      have hunknown : serverLayout kind = none →
          ∀ rb, serverOnKind mem jc p alloc kind rb = ⟨[], p, rb, []⟩ := serverOnKind_unknown
      obtain ⟨hin, hno⟩ := kind_contained (F := fun _ => False) hm hunknown
        fun fs rb => serverOnKind_handles
      exact ⟨hin, fun hw => List.eq_nil_iff_forall_not_mem.mpr (hno hw)⟩
    · -- a job that a signal interrupts reads nothing
      have hin : Within base (base + (kind :: b).length) (received base (kind :: b).length) :=
        ⟨rfl, rfl, Nat.le_refl base, Nat.le_add_right base _, fun _ h => by cases h⟩
      simp only [clientOnBinaryJob, serverOnBinaryJob, if_neg hsig]
      exact ⟨⟨contained_silent hin, fun _ _ h => (by cases h)⟩, contained_silent hin,
        fun _ => trivial⟩

theorem received_contained_sample :
    let b : Bytes := [CHAR_FOR_REPLY, 7, 0, 0, 0, 3, 0, 0]
    let p : Protows := ⟨⟨true, true, true, true, true, true, true⟩, [⟨1, 5, 7⟩], []⟩
    let o := clientOnBinaryJob (memoryOf 100 b) booleans p 0 (received 100 b.length)
    o.callbacks = [.onReply 5 booleans.null (some (.lit protoError)) (some (.lit cantProcess))] ∧
      Contained (memoryOf 100 b) 100 108 (Fallback booleans p b) o := by
  intro b p o
  exact ⟨rfl, (received_contained (memoryOf 100 b) booleans p 0 true 100 b (by decide)
    (holds_memoryOf 100 b)).1.1⟩

end AfbBinder.ProtoWs
