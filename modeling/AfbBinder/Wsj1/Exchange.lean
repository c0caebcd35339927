import AfbBinder.Wsj1.Answers

/-! Two afb_wsj1 at the ends of one websocket. Each of them calls, replies and sends events, and
the texts that it writes are received by the other one later, in the order of the writes. -/
namespace AfbBinder.Wsj1
open Lib.Cstrings Lib.Json Lib.Runs

inductive Side where
  | left
  | right
  deriving DecidableEq, Repr

def Side.other : Side → Side
  | .left => .right
  | .right => .left

/-- What a text was made of: a reply is made for a call. -/
inductive Sent where
  | call (call : Call) (api verb : Bytes) (object : Option Bytes)
  | reply (call : Call) (iserror : Bool) (object : Option Bytes)
  | event (name : Bytes) (object : Option Bytes)
  deriving DecidableEq, Repr

structure Packet where
  text : Bytes
  sent : Sent
  deriving DecidableEq, Repr

/-- A message given to on_call that is not replied to, and the number of its call. -/
structure Held where
  number : Nat
  msg : Msg
  deriving DecidableEq, Repr

/-- The end of a websocket. sent and failed, the replies that were not written, are what the
user did: no function reads them. -/
structure End where
  wsj1 : AfbWsj1
  incoming : List Packet
  held : List Held
  sent : List Sent
  failed : List Call
  deriving DecidableEq, Repr

namespace Sent

/-- The call that is made. -/
def made : Sent → Option Call
  | call c _ _ _ => some c
  | _ => none

/-- The call that is answered. -/
def answered : Sent → Option Call
  | reply c _ _ => some c
  | _ => none

/-- The number of a call, for the messages given to on_call. -/
def number : Sent → Nat
  | call c _ _ _ => c.number
  | _ => 0

end Sent

/-- A text is received when it is made and written without an error. -/
def write (a b : End) (text : Option Bytes) (written : Int) (sent : Sent) : End × End :=
  match text with
  | some text =>
    if written < 0 then ({ a with failed := a.failed ++ sent.answered.toList }, b)
    else ({ a with sent := a.sent ++ [sent] }, { b with incoming := b.incoming ++ [⟨text, sent⟩] })
  | none => ({ a with failed := a.failed ++ sent.answered.toList }, b)

/-- The messages given to on_call. -/
def onCalls (number : Nat) (events : List Event) : List Held :=
  events.filterMap fun
    | .onCall msg => some ⟨number, msg⟩
    | _ => none

inductive Move where
  | call (api verb : Bytes) (object : Option Bytes) (written : Int)
  | event (name : Bytes) (object : Option Bytes) (written : Int)
  | reply (i : Nat) (iserror : Bool) (object token : Option Bytes) (written : Int)
  | deliver
  | hangup
  deriving DecidableEq, Repr

/-- A move of the end a, the other end being b. afb_wsj1_call_s, afb_wsj1_send_event_s,
afb_wsj1_reply_s for one of the messages held and its release, the reception of a text, and the
hangup. -/
def move (itf : Itf) (a b : End) : Move → Option (End × End)
  | .call api verb object written =>
    (wsj1CallCreate a.wsj1).bind fun p =>
      (afbWsj1CallS a.wsj1 api verb object written).map fun w =>
        let text := wsj1SendIssot a.wsj1.connected .call p.1.id (api ++ slash :: verb) object none
        write { a with wsj1 := w } b text written (.call p.1 api verb object)
  | .event name object written =>
    let text := wsj1SendIsot a.wsj1.connected .event name object none
    some (write { a with wsj1 := a.wsj1.tell (text.toList.map .sent) } b text written (.event name object))
  | .reply i iserror object token written =>
    a.held[i]?.map fun h =>
      let text := wsj1SendIsot a.wsj1.connected (if iserror then .reterr else .retok) h.msg.idString object token
      write { a with wsj1 := a.wsj1.tell (text.toList.map .sent), held := a.held.eraseIdx i } b text written
        (.reply ⟨h.msg.idString, h.number⟩ iserror object)
  | .deliver =>
    match a.incoming with
    | [] => none
    | p :: incoming =>
      if a.wsj1.connected then
        let w := wsj1OnText itf a.wsj1 p.text
        let held := onCalls p.sent.number (w.events.drop a.wsj1.events.length)
        some ({ a with wsj1 := w, incoming := incoming, held := a.held ++ held }, b)
      else none
  | .hangup => some ({ a with wsj1 := afbWsHangup itf a.wsj1 }, b)

def End.start : End where
  wsj1 := .start
  incoming := []
  held := []
  sent := []
  failed := []

abbrev Exchange := Side → End

/-- A step is a move of one of the ends. -/
def Exchange.step (itf : Side → Itf) (s : Exchange) (m : Side × Move) : Option Exchange :=
  (move (itf m.1) (s m.1) (s m.1.other) m.2).map fun p i => if i = m.1 then p.1 else p.2

def Exchange.start : Exchange := fun _ => .start

/-- What the users give is what the formats of the texts can carry. -/
def Move.Valid : Move → Prop
  | .call api verb object _ => (⟨.call [] api verb, object, none⟩ : Message).Valid
  | .event name object _ => (⟨.event name, object, none⟩ : Message).Valid
  | .reply _ iserror object token _ => (⟨.reply iserror [], object, token⟩ : Message).Valid
  | .deliver => True
  | .hangup => True

/-! What is told. -/

/-- The token of a reply is lost. -/
def Sent.message : Sent → Message
  | .call c api verb object => ⟨.call c.id api verb, object, none⟩
  | .reply c iserror object => ⟨.reply iserror c.id, object, none⟩
  | .event name object => ⟨.event name, object, none⟩

/-- The number of the callback that is called, none for on_call and on_event, and what is read. -/
def Event.told : Event → Option (Option Nat × View)
  | .callback number msg => some (some number, msg.view)
  | .onCall msg => some (none, msg.view)
  | .onEvent msg => some (none, msg.view)
  | _ => none

def Sent.told (sent : Sent) : Option Nat × View := (sent.answered.map Call.number, sent.message.view)

/-- The events are told when the user has a callback for them. -/
def Sent.heard (itf : Itf) : Sent → Bool
  | .event _ _ => itf.onEvent
  | _ => true

/-- What the callback of a pending call is told by the hangup. -/
def hangupTold (c : Call) : Option Nat × View :=
  (some c.number, (⟨.reply true c.id, some errorObjectStr, none⟩ : Message).view)

def AfbWsj1.told (s : AfbWsj1) : List (Option Nat × View) := s.events.filterMap Event.told

/-- The calls that are written and not read by the other end. -/
def unread (incoming : List Packet) : List Call := incoming.filterMap fun p => p.sent.made

/-- The replies that are written and not read. -/
def coming (incoming : List Packet) : List Call := incoming.filterMap fun p => p.sent.answered

def Held.call (h : Held) : Call := ⟨h.msg.idString, h.number⟩

/-- The texts of the end a, and its calls. -/
structure Sound (itf : Itf) (a b : End) : Prop where
  inv : Inv a.wsj1
  readable : ∀ p ∈ b.incoming, (wsj1MsgMake p.text).map Msg.view = some p.sent.message.view
  told : ∃ read hung, a.sent = read ++ b.incoming.map Packet.sent ∧
    b.wsj1.told = (read.filter (Sent.heard itf)).map Sent.told ++ hung.map hangupTold ∧
    (b.wsj1.connected = true → hung = []) ∧
    (b.sent.filterMap Sent.made).Perm (hung ++ read.filterMap Sent.answered ++ b.wsj1.calls)
  gone : b.wsj1.connected = false → b.wsj1.calls = []
  accepted : ∀ code, Event.close code ∉ b.wsj1.events
  numbers : (a.sent.filterMap Sent.made).map Call.number =
    (List.range a.wsj1.results.length).filter fun k => 0 ≤ a.wsj1.results.getD k (-1)
  ids : ∀ c ∈ a.sent.filterMap Sent.made, Plain c.id
  placed : (a.sent.filterMap Sent.made).Perm
    (unread b.incoming ++ b.held.map Held.call ++ b.sent.filterMap Sent.answered ++ b.failed)
  pending : a.wsj1.connected = true → a.wsj1.calls.Perm
    (unread b.incoming ++ b.held.map Held.call ++ coming a.incoming ++ b.failed)

private theorem sound_start (itf : Itf) : Sound itf .start .start where
  inv := inv_start
  readable := by simp [End.start]
  told := ⟨[], [], rfl, rfl, fun _ => rfl, .nil⟩
  gone _ := rfl
  accepted := by simp [End.start, AfbWsj1.start]
  numbers := rfl
  ids := by simp [End.start]
  placed := .nil
  pending _ := .nil

section
variable {itf itf' : Itf} {a b a1 : End} {sent : Sent} {text : Option Bytes} {written : Int} {s : AfbWsj1}

private theorem told_tell (es : List Event) : (s.tell es).told = s.told ++ es.filterMap Event.told :=
  List.filterMap_append

private theorem told_sent (texts : List Bytes) : (s.tell (texts.map .sent)).told = s.told := by
  have hnone : (texts.map Event.sent).filterMap Event.told = [] := by simp [Event.told]
  rw [told_tell, hnone, List.append_nil]

private theorem close_sent {code : Nat} (texts : List Bytes) (h : Event.close code ∉ s.events) :
    Event.close code ∉ (s.tell (texts.map .sent)).events := by
  simp [AfbWsj1.tell, h]

/-! Writing. -/

private theorem write_spec (a b : End) (text : Option Bytes) (written : Int) (sent : Sent) :
    ∃ packets failed, write a b text written sent =
        ({ a with sent := a.sent ++ packets.map Packet.sent, failed := a.failed ++ failed },
          { b with incoming := b.incoming ++ packets }) ∧
      (∀ p ∈ packets, text = some p.text ∧ p.sent = sent) ∧
      coming packets ++ failed = sent.answered.toList ∧
      unread packets = if text.isSome ∧ 0 ≤ written then sent.made.toList else [] := by
  cases text with
  | none => exact ⟨[], sent.answered.toList, by simp [write], by simp, rfl, by simp [unread]⟩
  | some x =>
    by_cases hw : written < 0
    · exact ⟨[], sent.answered.toList, by simp [write, hw], by simp, rfl, by simp [unread, hw]⟩
    · refine ⟨[⟨x, sent⟩], [], by simp [write, hw], by simp, ?_, ?_⟩
      · cases h : sent.answered <;> simp [coming, h]
      · cases h : sent.made <;> simp [unread, h, hw]

private theorem coming_append (incoming packets : List Packet) :
    coming (incoming ++ packets) = coming incoming ++ coming packets := List.filterMap_append

private theorem unread_append (incoming packets : List Packet) :
    unread (incoming ++ packets) = unread incoming ++ unread packets := List.filterMap_append

private theorem made_append (sents : List Sent) (packets : List Packet) :
    (sents ++ packets.map Packet.sent).filterMap Sent.made = sents.filterMap Sent.made ++ unread packets := by
  rw [List.filterMap_append, List.filterMap_map]
  rfl

private theorem answered_append (sents : List Sent) (packets : List Packet) :
    (sents ++ packets.map Packet.sent).filterMap Sent.answered = sents.filterMap Sent.answered ++ coming packets := by
  rw [List.filterMap_append, List.filterMap_map]
  rfl

/-- The end that receives keeps its own calls: one that is answered leaves the messages held. -/
theorem sound_peer (h : Sound itf b a) (hincoming : a1.incoming = a.incoming) (hsent : a1.sent = a.sent)
    (hfailed : a1.failed = a.failed) (htold : a1.wsj1.told = a.wsj1.told)
    (hon : a1.wsj1.connected = a.wsj1.connected) (hclose : ∀ code, Event.close code ∉ a1.wsj1.events)
    (hcalls : a1.wsj1.calls = (if text.isSome ∧ 0 ≤ written then sent.made.toList else []) ++ a.wsj1.calls)
    (hoff : a.wsj1.connected = false → text = none)
    (hheld : (a.held.map Held.call).Perm (sent.answered.toList ++ a1.held.map Held.call)) :
    Sound itf (write a1 b text written sent).2 (write a1 b text written sent).1 := by
  obtain ⟨packets, failed, hwrite, -, hanswered, hunread⟩ := write_spec a1 b text written sent
  have hcount (c : Call) : (a.held.map Held.call).count c =
      (coming packets).count c + failed.count c + (a1.held.map Held.call).count c := by
    rw [List.perm_iff_count.mp hheld, List.count_append, ← hanswered, List.count_append]
  rw [hwrite]
  refine ⟨h.inv, ?_, ?_, ?_, hclose, h.numbers, h.ids, ?_, ?_⟩
  · rw [hincoming]
    exact h.readable
  · obtain ⟨read, hung, hread, htell, hhung, hpending⟩ := h.told
    refine ⟨read, hung, by rw [hincoming]; exact hread, by rw [htold]; exact htell, by rw [hon]; exact hhung, ?_⟩
    rw [List.perm_iff_count]
    intro c
    have hall := (List.perm_iff_count.mp hpending) c
    simp only [hsent, made_append, hunread, hcalls, List.count_append] at hall ⊢
    omega
  · intro hoffline
    have hgone := hon.symm.trans hoffline
    simp [hcalls, hoff hgone, h.gone hgone]
  · rw [List.perm_iff_count]
    intro c
    have hone := hcount c
    have hall := (List.perm_iff_count.mp h.placed) c
    simp only [hincoming, hsent, hfailed, answered_append, List.count_append] at hall ⊢
    omega
  · intro honline
    rw [List.perm_iff_count]
    intro c
    have hone := hcount c
    have hall := (List.perm_iff_count.mp (h.pending honline)) c
    simp only [hincoming, hfailed, coming_append, List.count_append] at hall ⊢
    omega

/-- The end that writes, its new call being pending when it is written. -/
theorem sound_write (h : Sound itf a b) (hincoming : a1.incoming = a.incoming) (hsent : a1.sent = a.sent)
    (hinv : Inv a1.wsj1) (hon : a1.wsj1.connected = a.wsj1.connected)
    (hread : ∀ x, text = some x → (wsj1MsgMake x).map Msg.view = some sent.message.view)
    (hid : ∀ c, sent.made = some c → Plain c.id)
    (hcalls : a1.wsj1.calls = (if text.isSome ∧ 0 ≤ written then sent.made.toList else []) ++ a.wsj1.calls)
    (hnumbers : (a.sent.filterMap Sent.made).map Call.number ++
        (if text.isSome ∧ 0 ≤ written then sent.made.toList else []).map Call.number =
      (List.range a1.wsj1.results.length).filter fun k => 0 ≤ a1.wsj1.results.getD k (-1)) :
    Sound itf (write a1 b text written sent).1 (write a1 b text written sent).2 := by
  obtain ⟨packets, failed, hwrite, hpackets, -, hunread⟩ := write_spec a1 b text written sent
  rw [← hunread] at hcalls hnumbers
  rw [hwrite]
  refine ⟨hinv, ?_, ?_, h.gone, h.accepted, ?_, ?_, ?_, ?_⟩
  · intro p hp
    rcases List.mem_append.mp hp with hp | hp
    · exact h.readable p hp
    · obtain ⟨htext, hsent⟩ := hpackets p hp
      rw [hsent]
      exact hread p.text htext
  · obtain ⟨read, hung, hsplit, htell, hhung⟩ := h.told
    exact ⟨read, hung, by simp [hsent, hsplit], htell, hhung⟩
  · dsimp only
    rw [made_append, List.map_append, hsent]
    exact hnumbers
  · dsimp only
    rw [made_append, hsent]
    intro c hc
    rcases List.mem_append.mp hc with hc | hc
    · exact h.ids c hc
    · rw [unread, List.mem_filterMap] at hc
      obtain ⟨p, hp, hmade⟩ := hc
      rw [(hpackets p hp).2] at hmade
      exact hid c hmade
  · rw [List.perm_iff_count]
    intro c
    have hall := (List.perm_iff_count.mp h.placed) c
    simp only [hsent, made_append, unread_append, List.count_append] at hall ⊢
    omega
  · intro honline
    rw [List.perm_iff_count]
    intro c
    have hall := (List.perm_iff_count.mp (h.pending (hon.symm.trans honline))) c
    simp only [hincoming, hcalls, unread_append, List.count_append] at hall ⊢
    omega

private theorem sound_write_other (h : Sound itf a b) (hincoming : a1.incoming = a.incoming)
    (hsent : a1.sent = a.sent) (hinv : Inv a1.wsj1) (hcalls : a1.wsj1.calls = a.wsj1.calls)
    (hresults : a1.wsj1.results = a.wsj1.results) (hon : a1.wsj1.connected = a.wsj1.connected)
    (hmade : sent.made = none) (hread : ∀ x, text = some x → (wsj1MsgMake x).map Msg.view = some sent.message.view) :
    Sound itf (write a1 b text written sent).1 (write a1 b text written sent).2 := by
  have hnew : (if text.isSome ∧ 0 ≤ written then sent.made.toList else []) = [] := by simp [hmade]
  refine sound_write h hincoming hsent hinv hon hread (by simp [hmade]) ?_ ?_
  · rw [hnew, hcalls, List.nil_append]
  · rw [hnew, hresults, List.map_nil, List.append_nil]
    exact h.numbers

end

/-! The texts that are written are read. -/

section
variable {connected : Bool} {code : Code} {s1 s2 x : Bytes} {o1 t1 : Option Bytes}

private theorem isot_eq (h : wsj1SendIsot connected code s1 o1 t1 = some x) :
    x = lbracket :: joined ([codeText code, quoted s1, o1.getD (ascii "null")] ++ t1.toList.map quoted) := by
  cases connected with
  | false => exact nomatch h
  | true => exact (Option.some.inj (wsj1SendIsot_eq.symm.trans h)).symm

private theorem issot_eq (h : wsj1SendIssot connected code s1 s2 o1 t1 = some x) :
    x = lbracket :: joined ([codeText code, quoted s1, quoted s2, o1.getD (ascii "null")] ++ t1.toList.map quoted) := by
  cases connected with
  | false => exact nomatch h
  | true => exact (Option.some.inj (wsj1SendIssot_eq.symm.trans h)).symm

private theorem event_view {name : Bytes} (hv : (⟨.event name, o1, none⟩ : Message).Valid)
    (h : wsj1SendIsot connected .event name o1 none = some x) :
    (wsj1MsgMake x).map Msg.view = some (Sent.event name o1).message.view := by
  rw [isot_eq h]
  exact event_read hv.body hv.objectText

private theorem reply_view {iserror : Bool} {c : Call} (hid : Plain c.id)
    (hv : (⟨.reply iserror [], o1, t1⟩ : Message).Valid)
    (h : wsj1SendIsot connected (if iserror then .reterr else .retok) c.id o1 t1 = some x) :
    (wsj1MsgMake x).map Msg.view = some (Sent.reply c iserror o1).message.view := by
  have hcode : (if iserror then Code.reterr else .retok) = .retok ∨
      (if iserror then Code.reterr else .retok) = .reterr := by cases iserror <;> decide
  rw [isot_eq h]
  cases t1 with
  | none => exact reply_read hcode hid hv.objectText
  | some t => exact reply_read_token hcode hid hv.objectText (hv.token t rfl)

private theorem call_view {c : Call} {api verb : Bytes} (hid : Plain c.id)
    (hv : (⟨.call [] api verb, o1, none⟩ : Message).Valid)
    (h : wsj1SendIssot connected .call c.id (api ++ slash :: verb) o1 none = some x) :
    (wsj1MsgMake x).map Msg.view = some (Sent.call c api verb o1).message.view := by
  obtain ⟨-, hapi, hslash, hverb, hne, hhead⟩ := hv.body
  rw [issot_eq h]
  exact call_read hid hapi hslash hverb hne hhead hv.objectText

end

/-! The moves that write. -/

section
variable {itf itf' : Itf} {a b : End} {q : End × End}

private theorem sound_event {name : Bytes} {object : Option Bytes} {written : Int} (ha : Sound itf' a b)
    (hb : Sound itf b a) (hv : (Move.event name object written).Valid)
    (h : move itf a b (.event name object written) = some q) : Sound itf' q.1 q.2 ∧ Sound itf q.2 q.1 := by
  rw [← Option.some.inj h]
  constructor
  · exact sound_write_other ha rfl rfl (ha.inv.tell (by simp [Event.calls])) rfl rfl rfl rfl
      fun x hx => event_view hv hx
  · exact sound_peer hb rfl rfl rfl (told_sent _) rfl (fun code => close_sent _ (hb.accepted code))
      (by simp [Sent.made, AfbWsj1.tell]) (fun hoff => by rw [hoff]; rfl) (.refl _)

private theorem sound_reply {i : Nat} {iserror : Bool} {object token : Option Bytes} {written : Int}
    (ha : Sound itf' a b) (hb : Sound itf b a) (hv : (Move.reply i iserror object token written).Valid)
    (h : move itf a b (.reply i iserror object token written) = some q) :
    Sound itf' q.1 q.2 ∧ Sound itf q.2 q.1 := by
  obtain ⟨held, hheld, rfl⟩ := Option.map_eq_some_iff.mp h
  have hperm : (a.held.map Held.call).Perm (held.call :: (a.held.eraseIdx i).map Held.call) := by
    obtain ⟨hi, hget⟩ := List.getElem?_eq_some_iff.mp hheld
    rw [← hget]
    exact (List.getElem_cons_eraseIdx_perm hi).symm.map Held.call
  have hid : Plain held.msg.idString := by
    refine hb.ids held.call (hb.placed.mem_iff.mpr ?_)
    simp only [List.mem_append]
    exact .inl (.inl (.inr (hperm.mem_iff.mpr List.mem_cons_self)))
  constructor
  · exact sound_write_other ha rfl rfl (ha.inv.tell (by simp [Event.calls])) rfl rfl rfl rfl
      fun x hx => reply_view (c := ⟨held.msg.idString, held.number⟩) hid hv hx
  · exact sound_peer hb rfl rfl rfl (told_sent _) rfl (fun code => close_sent _ (hb.accepted code))
      (by simp [Sent.made, AfbWsj1.tell]) (fun hoff => by rw [hoff]; rfl) hperm

/-- What a call does: it is pending when its text is written. -/
theorem call_made {s t : AfbWsj1} {p : Call × AfbWsj1} {api verb : Bytes} {object : Option Bytes} {written : Int}
    (hcreate : wsj1CallCreate s = some p) (hcall : afbWsj1CallS s api verb object written = some t) :
    let text := wsj1SendIssot s.connected .call p.1.id (api ++ slash :: verb) object none
    let rc := if text.isSome then written else -1
    Plain p.1.id ∧ p.1.number = s.results.length ∧ t.connected = s.connected ∧
      (∃ texts : List Bytes, t.events = s.events ++ texts.map Event.sent) ∧ t.results = s.results ++ [rc] ∧
      t.calls = if rc < 0 then s.calls else p.1 :: s.calls := by
  obtain ⟨id, hid, rfl⟩ := Option.map_eq_some_iff.mp hcreate
  rw [afbWsj1CallS, hcreate, Option.map_some, Option.some.injEq] at hcall
  subst hcall
  refine ⟨plain_decimal id, rfl, rfl, ⟨_, rfl⟩, rfl, ?_⟩
  dsimp only
  rw [search_new (c := ⟨decimal id, s.results.length⟩)]

private theorem numbers_snoc (results : List Int) (rc : Int) :
    ((List.range (results ++ [rc]).length).filter fun k => 0 ≤ (results ++ [rc]).getD k (-1)) =
      ((List.range results.length).filter fun k => 0 ≤ results.getD k (-1)) ++
        if rc < 0 then [] else [results.length] := by
  have hold : ∀ k ∈ List.range results.length, decide (0 ≤ (results ++ [rc]).getD k (-1)) =
      decide (0 ≤ results.getD k (-1)) := by
    intro k hk
    rw [List.getD_append _ _ _ _ (List.mem_range.mp hk)]
  rw [List.length_append, List.length_singleton, List.range_succ, List.filter_append, List.filter_congr hold]
  by_cases hrc : rc < 0
  · simp [hrc]
  · simp [hrc, Int.not_lt.mp hrc]

private theorem sound_call {api verb : Bytes} {object : Option Bytes} {written : Int} (ha : Sound itf' a b)
    (hb : Sound itf b a) (hv : (Move.call api verb object written).Valid)
    (h : move itf a b (.call api verb object written) = some q) : Sound itf' q.1 q.2 ∧ Sound itf q.2 q.1 := by
  obtain ⟨p, hcreate, h⟩ := Option.bind_eq_some_iff.mp h
  obtain ⟨w, hcall, rfl⟩ := Option.map_eq_some_iff.mp h
  obtain ⟨hid, hnumber, hon, ⟨texts, hevents⟩, hresults, hcalls⟩ := call_made hcreate hcall
  have hnew : (if (wsj1SendIssot a.wsj1.connected .call p.1.id (api ++ slash :: verb) object none).isSome ∧ 0 ≤ written
      then (Sent.call p.1 api verb object).made.toList else []) =
      if (if (wsj1SendIssot a.wsj1.connected .call p.1.id (api ++ slash :: verb) object none).isSome then written
        else -1) < 0 then [] else [p.1] := by
    cases wsj1SendIssot a.wsj1.connected .call p.1.id (api ++ slash :: verb) object none with
    | none => rfl
    | some x =>
      by_cases hw : written < 0
      · simp [hw]
      · simp [hw, Int.not_lt.mp hw, Sent.made]
  have hadded : w.calls = (if (wsj1SendIssot a.wsj1.connected .call p.1.id (api ++ slash :: verb) object none).isSome ∧
      0 ≤ written then (Sent.call p.1 api verb object).made.toList else []) ++ a.wsj1.calls := by
    rw [hnew, hcalls]
    split_ifs <;> rfl
  constructor
  · refine sound_write ha rfl rfl (inv_call ha.inv hcall) hon (fun x hx => call_view hid hv hx) ?_ hadded ?_
    · intro c hc
      rw [← Option.some.inj hc]
      exact hid
    · rw [hnew, hresults, numbers_snoc, ha.numbers, ← hnumber]
      split_ifs <;> rfl
  · have htold : w.told = a.wsj1.told := by
      rw [AfbWsj1.told, hevents]
      exact told_sent texts
    refine sound_peer hb rfl rfl rfl htold hon (fun code => ?_) hadded (fun hoff => by rw [hoff]; rfl) (.refl _)
    rw [hevents]
    exact close_sent texts (hb.accepted code)

/-! The reception of a text. -/

private theorem idString_of_view {msg : Msg} {id : Bytes} (h : msg.view.id = some id) : msg.idString = id := by
  rw [Msg.idString]
  exact congrArg (Option.getD · []) h

variable (itf) in
/-- What is told is what the text was made of, and its reply removes the call. -/
theorem onText_spec {s : AfbWsj1} {p : Packet} (hs : Inv s)
    (hread : (wsj1MsgMake p.text).map Msg.view = some p.sent.message.view)
    (hanswered : ∀ c, p.sent.answered = some c → c ∈ s.calls) :
    ∃ events calls, wsj1OnText itf s p.text = { s.tell events with calls := calls } ∧
      events.filterMap Event.told = (if p.sent.heard itf then [p.sent.told] else []) ∧
      (onCalls p.sent.number events).map Held.call = p.sent.made.toList ∧ (∀ code, Event.close code ∉ events) ∧
      s.calls.Perm (p.sent.answered.toList ++ calls) := by
  obtain ⟨text, sent⟩ := p
  obtain ⟨msg, hmake, hview⟩ := Option.map_eq_some_iff.mp hread
  cases sent with
  | call c api verb object =>
    have hcode : msg.code = .call := congrArg View.code hview
    refine ⟨[.onCall msg], s.calls, by simp only [wsj1OnText, hmake, hcode, AfbWsj1.tell], ?_, ?_, by simp, .refl _⟩
    · simp [Event.told, Sent.heard, Sent.told, Sent.answered, hview]
    · have hid : msg.idString = c.id := idString_of_view (congrArg View.id hview)
      simp [onCalls, Held.call, hid, Sent.number, Sent.made]
  | reply c iserror object =>
    have hid : msg.idString = c.id := idString_of_view (congrArg View.id hview)
    have hc : c ∈ s.calls := hanswered c rfl
    have hcode : msg.code = if iserror then .reterr else .retok := congrArg View.code hview
    have hreply : msg.code = .retok ∨ msg.code = .reterr := by
      rw [hcode]
      cases iserror
      · exact .inl rfl
      · exact .inr rfl
    refine ⟨[.callback c.number msg], s.calls.erase c, wsj1OnText_reply hs hmake hreply hc hid.symm, ?_, rfl, by simp,
      List.perm_cons_erase hc⟩
    simp [Event.told, Sent.heard, Sent.told, Sent.answered, hview]
  | event name object =>
    have hcode : msg.code = .event := congrArg View.code hview
    cases hitf : itf.onEvent with
    | true =>
      refine ⟨[.onEvent msg], s.calls, by simp only [wsj1OnText, hmake, hcode, hitf, AfbWsj1.tell, if_true], ?_, rfl,
        by simp, .refl _⟩
      simp [Event.told, Sent.heard, Sent.told, Sent.answered, hview, hitf]
    | false =>
      refine ⟨[], s.calls, ?_, by simp [Sent.heard, hitf], rfl, by simp, .refl _⟩
      simp only [wsj1OnText, hmake, hcode, hitf, AfbWsj1.tell, List.append_nil]
      rfl

private theorem sound_deliver (ha : Sound itf' a b) (hb : Sound itf b a) (h : move itf a b .deliver = some q) :
    Sound itf' q.1 q.2 ∧ Sound itf q.2 q.1 := by
  rw [move] at h
  cases hin : a.incoming with
  | nil => simp [hin] at h
  | cons p incoming =>
    rw [hin] at h
    dsimp only at h
    split_ifs at h with hon
    have hcalls := ha.pending hon
    rw [hin] at hcalls
    have hcoming : coming (p :: incoming) = p.sent.answered.toList ++ coming incoming := by
      cases hp : p.sent.answered <;> simp [coming, hp]
    have hunread : unread (p :: incoming) = p.sent.made.toList ++ unread incoming := by
      cases hp : p.sent.made <;> simp [unread, hp]
    have hanswered (c : Call) (hc : p.sent.answered = some c) : c ∈ a.wsj1.calls := by
      rw [hcalls.mem_iff, hcoming, hc]
      simp
    obtain ⟨events, calls, hstep, htold, hmade, hclose, hperm⟩ :=
      onText_spec itf ha.inv (hb.readable p (by rw [hin]; exact List.mem_cons_self)) hanswered
    have hinv : Inv (wsj1OnText itf a.wsj1 p.text) := inv_text ha.inv p.text
    have hnew : (wsj1OnText itf a.wsj1 p.text).events.drop a.wsj1.events.length = events := by
      rw [hstep]
      exact List.drop_left
    rw [hnew, hstep] at h
    rw [hstep] at hinv
    rw [← Option.some.inj h]
    constructor
    · refine ⟨hinv, ha.readable, ha.told, ha.gone, ha.accepted, ha.numbers, ha.ids, ha.placed, fun _ => ?_⟩
      rw [List.perm_iff_count]
      intro c
      have hall := (List.perm_iff_count.mp hcalls) c
      have hone := (List.perm_iff_count.mp hperm) c
      simp only [hcoming, List.count_append] at hall hone ⊢
      omega
    · obtain ⟨read, hung, hsplit, htell, hhung, hpending⟩ := hb.told
      have hheld (c : Call) : (a.held.map Held.call ++ (onCalls p.sent.number events).map Held.call).count c =
          (a.held.map Held.call).count c + p.sent.made.toList.count c := by
        rw [hmade, List.count_append]
      refine ⟨hb.inv, fun p' hp' => hb.readable p' (by rw [hin]; exact List.mem_cons_of_mem _ hp'), ?_,
        fun hoff => absurd hon (by rw [show a.wsj1.connected = false from hoff]; decide), ?_, hb.numbers,
        hb.ids, ?_, fun honline => ?_⟩
      · have hhung := hhung hon
        subst hhung
        have hread : (read ++ [p.sent]).filterMap Sent.answered =
            read.filterMap Sent.answered ++ p.sent.answered.toList := by
          cases hp : p.sent.answered <;> simp [hp]
        refine ⟨read ++ [p.sent], [], by simp [hsplit, hin], ?_, fun _ => rfl, ?_⟩
        swap
        · rw [List.perm_iff_count]
          intro c
          have hall := (List.perm_iff_count.mp hpending) c
          have hone := (List.perm_iff_count.mp hperm) c
          simp only [hread, List.count_append] at hall hone ⊢
          omega
        have hall : ({ a.wsj1.tell events with calls := calls } : AfbWsj1).told =
            a.wsj1.told ++ events.filterMap Event.told := told_tell events
        dsimp only
        rw [hall, htell, htold, List.filter_append]
        cases hheard : p.sent.heard itf <;> simp [hheard]
      · intro code hcode
        rcases List.mem_append.mp hcode with hcode | hcode
        · exact hb.accepted code hcode
        · exact hclose code hcode
      · rw [List.perm_iff_count]
        intro c
        have hall := (List.perm_iff_count.mp hb.placed) c
        have hone := hheld c
        simp only [hin, hunread, List.map_append, List.count_append] at hall hone ⊢
        omega
      · rw [List.perm_iff_count]
        intro c
        have hall := (List.perm_iff_count.mp (hb.pending honline)) c
        have hone := hheld c
        simp only [hin, hunread, List.map_append, List.count_append] at hall hone ⊢
        omega

/-! The hangup. -/

private theorem hangup_told {calls : List Call} (hdec : ∀ c ∈ calls, ∃ n, c.id = decimal n) :
    (calls.filterMap fun call => (wsj1MsgMake (hangupText call.id)).map fun msg =>
      Event.callback call.number msg).filterMap Event.told = calls.map hangupTold := by
  induction calls with
  | nil => rfl
  | cons c calls ih =>
    rw [List.forall_mem_cons] at hdec
    obtain ⟨⟨n, hn⟩, hdec⟩ := hdec
    have hread := reply_read (.inr rfl) (plain_decimal n) text_errorObjectStr
    rw [← hangupText_eq, ← hn] at hread
    obtain ⟨msg, hmake, hview⟩ := Option.map_eq_some_iff.mp hread
    have htold : Event.told (.callback c.number msg) = some (hangupTold c) := by
      rw [Event.told, hview]
      rfl
    rw [List.filterMap_cons_some (by rw [hmake]; rfl), List.filterMap_cons_some htold, ih hdec]
    rfl

private theorem sound_hangup (ha : Sound itf' a b) (hb : Sound itf b a) (h : move itf a b .hangup = some q) :
    Sound itf' q.1 q.2 ∧ Sound itf q.2 q.1 := by
  rw [← Option.some.inj h]
  cases hon : a.wsj1.connected with
  | false =>
    have hsame : afbWsHangup itf a.wsj1 = a.wsj1 := by simp [afbWsHangup, hon]
    rw [hsame]
    exact ⟨ha, hb⟩
  | true =>
    constructor
    · refine ⟨inv_hangup ha.inv, ha.readable, ha.told, ha.gone, ha.accepted, ?_, ha.ids, ha.placed, fun hoff => ?_⟩
      · have hresults : (afbWsHangup itf a.wsj1).results = a.wsj1.results := by simp [afbWsHangup, hon, wsj1OnHangup]
        dsimp only
        rw [hresults]
        exact ha.numbers
      · exact absurd hoff (by simp [afbWsHangup, hon, wsj1OnHangup])
    · obtain ⟨read, hung, hsplit, htell, hhung, hpending⟩ := hb.told
      have hhung := hhung hon
      subst hhung
      have hcalls : (afbWsHangup itf a.wsj1).calls = [] := by simp [afbWsHangup, hon, wsj1OnHangup]
      have hlast : (if itf.onHangup then [Event.onHangup] else []).filterMap Event.told = [] := by
        cases itf.onHangup <;> rfl
      refine ⟨hb.inv, hb.readable, ⟨read, a.wsj1.calls, hsplit, ?_, fun hoff => ?_, ?_⟩, fun _ => hcalls, ?_, hb.numbers,
        hb.ids, hb.placed, hb.pending⟩
      · rw [AfbWsj1.told] at htell ⊢
        dsimp only
        rw [afbWsHangup, if_pos hon, wsj1OnHangup, List.filterMap_append, List.filterMap_append, hlast,
          hangup_told ha.inv.decimals, htell]
        simp
      · exact absurd hoff (by simp [afbWsHangup, hon, wsj1OnHangup])
      · rw [List.perm_iff_count]
        intro c
        have hall := (List.perm_iff_count.mp hpending) c
        simp only [hcalls, List.count_append, List.count_nil] at hall ⊢
        omega
      · intro code hcode
        refine hb.accepted code ?_
        simp only [afbWsHangup, hon, if_true, wsj1OnHangup, List.mem_append, List.mem_filterMap, Option.map_eq_some_iff] at hcode
        rcases hcode with (hcode | ⟨c, -, msg, -, hcode⟩) | hcode
        · exact hcode
        · cases hcode
        · cases honhangup : itf.onHangup <;> simp [honhangup] at hcode

private theorem sound_move {m : Move} (ha : Sound itf' a b) (hb : Sound itf b a) (hv : m.Valid)
    (h : move itf a b m = some q) : Sound itf' q.1 q.2 ∧ Sound itf q.2 q.1 := by
  cases m with
  | call api verb object written => exact sound_call ha hb hv h
  | event name object written => exact sound_event ha hb hv h
  | reply i iserror object token written => exact sound_reply ha hb hv h
  | deliver => exact sound_deliver ha hb h
  | hangup => exact sound_hangup ha hb h

end

/-! The runs. -/

private theorem sound_step {itf : Side → Itf} {s t : Exchange} {m : Side × Move}
    (hs : ∀ i : Side, Sound (itf i.other) (s i) (s i.other)) (hv : m.2.Valid) (h : s.step itf m = some t) (i : Side) :
    Sound (itf i.other) (t i) (t i.other) := by
  obtain ⟨q, hmove, rfl⟩ := Option.map_eq_some_iff.mp h
  have hother (i : Side) : i.other.other = i := by cases i <;> rfl
  have hb := hs m.1.other
  rw [hother] at hb
  obtain ⟨h1, h2⟩ := sound_move (hs m.1) hb hv hmove
  by_cases hi : i = m.1
  · have hne : ¬ i.other = m.1 := by
      rw [← hi]
      cases i <;> decide
    simp only [if_pos hi, if_neg hne]
    rw [hi]
    exact h1
  · have heq : i = m.1.other := by
      obtain ⟨j, m⟩ := m
      cases i <;> cases j <;> simp [Side.other] at hi ⊢
    have hback : i.other = m.1 := by rw [heq, hother]
    simp only [if_neg hi, if_pos hback]
    rw [hback]
    exact h2

private theorem sound_run {itf : Side → Itf} {ms : List (Side × Move)} {s : Exchange} (hv : ∀ m ∈ ms, m.2.Valid)
    (h : exec (Exchange.step itf) .start ms = some s) (i : Side) : Sound (itf i.other) (s i) (s i.other) :=
  exec_keeps_along (I := fun s : Exchange => ∀ i : Side, Sound (itf i.other) (s i) (s i.other))
    (fun _ _ _ hs hv h i => sound_step hs hv h i) (fun _ => sound_start _) (along_of_forall hv _) h i

end AfbBinder.Wsj1
