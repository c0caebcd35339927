import AfbBinder.Wsj1.Scan

/-! The messages that are sent and what wsj1_msg_make recovers of them. -/
namespace AfbBinder.Wsj1
open Lib.Cstrings Lib.Json Websock

inductive Body where
  | call (id api verb : Bytes)
  | reply (iserror : Bool) (id : Bytes)
  | event (name : Bytes)
  deriving DecidableEq, Repr

structure Message where
  body : Body
  object : Option Bytes
  token : Option Bytes
  deriving DecidableEq, Repr

def Message.send (m : Message) : Option Bytes :=
  match m.body with
  | .call id api verb => wsj1SendIssot true .call id (api ++ slash :: verb) m.object m.token
  | .reply iserror id => wsj1SendIsot true (if iserror then .reterr else .retok) id m.object m.token
  | .event name => wsj1SendIsot true .event name m.object m.token

/-- Strings without quote nor backslash, and a tag that splits as it was made. -/
def Body.Valid : Body → Prop
  | .call id api verb =>
    Plain id ∧ Plain api ∧ slash ∉ api ∧ Plain verb ∧ verb ≠ [] ∧ verb.head? ≠ some slash
  | .reply _ id => Plain id
  | .event name => Plain name

structure Message.Valid (m : Message) : Prop where
  body : m.body.Valid
  object : ∀ o, m.object = some o → Text o
  token : ∀ t, m.token = some t → Plain t

/-- What a receiver reads in a message. -/
structure View where
  code : Code
  id : Option Bytes
  api : Option Bytes
  verb : Option Bytes
  event : Option Bytes
  object : Bytes
  objectLength : Nat
  token : Option Bytes
  deriving DecidableEq, Repr

def Msg.view (msg : Msg) : View where
  code := msg.code
  id := msg.id.map (cstr msg.text)
  api := msg.api.map (cstr msg.text)
  verb := msg.verb.map (cstr msg.text)
  event := msg.event.map (cstr msg.text)
  object := cstr msg.text msg.objectS
  objectLength := msg.objectSLength
  token := msg.token.map (cstr msg.text)

def Message.objectText (m : Message) : Bytes := m.object.getD (ascii "null")

def Message.view (m : Message) : View :=
  match m.body with
  | .call id api verb =>
    ⟨.call, some id, some api, some verb, none, m.objectText, m.objectText.length, m.token⟩
  | .reply iserror id =>
    ⟨if iserror then .reterr else .retok, some id, none, none, none, m.objectText, m.objectText.length,
      m.token⟩
  | .event name => ⟨.event, none, none, none, some name, m.objectText, m.objectText.length, m.token⟩

/-! The texts sent. -/

private theorem afbWsTexts_eq {args : List (Option Bytes)} (h : (texts args).length ≤ 31) :
    afbWsTexts true args = some (texts args).flatten := by
  rw [afbWsTexts, if_neg (by decide), if_neg (by omega), websockSendV, websockSendInternalV,
    if_neg (by omega)]
  rfl

theorem marks : ascii "[" = [lbracket] ∧ ascii ",\"" = [comma, quote] ∧
    ascii "\"," = [quote, comma] ∧ ascii "\",\"" = [quote, comma, quote] ∧ ascii "]" = [rbracket] ∧
    ascii "\"]" = [quote, rbracket] := by
  decide

section
variable {i1 : Code} {s1 s2 : Bytes} {o1 t1 : Option Bytes}

theorem wsj1SendIsot_eq : wsj1SendIsot true i1 s1 o1 t1 =
    some (lbracket :: joined ([codeText i1, quoted s1, o1.getD (ascii "null")] ++ t1.toList.map quoted)) := by
  obtain ⟨h1, h2, h3, -, h5, h6⟩ := marks
  cases t1 with
  | none =>
    rw [wsj1SendIsot, afbWsTexts_eq (by simp [texts])]
    simp [texts, h1, h2, h3, h5, joined, quoted]
  | some t =>
    rw [wsj1SendIsot, afbWsTexts_eq (by simp [texts])]
    simp [texts, h1, h2, h3, h6, joined, quoted]

theorem wsj1SendIssot_eq : wsj1SendIssot true i1 s1 s2 o1 t1 =
    some (lbracket :: joined ([codeText i1, quoted s1, quoted s2, o1.getD (ascii "null")] ++
      t1.toList.map quoted)) := by
  obtain ⟨h1, h2, h3, h4, h5, h6⟩ := marks
  cases t1 with
  | none =>
    rw [wsj1SendIssot, afbWsTexts_eq (by simp [texts])]
    simp [texts, h1, h2, h3, h4, h5, joined, quoted]
  | some t =>
    rw [wsj1SendIssot, afbWsTexts_eq (by simp [texts])]
    simp [texts, h1, h2, h3, h4, h6, joined, quoted]

end

/-! Reading the items. -/

section
variable {text a b s : Bytes} {c : UInt8} {pos : Nat} {item : Nat × Nat}

private theorem set_at (htext : text = a ++ c :: b) (hpos : pos = a.length) :
    text.set pos 0 = a ++ 0 :: b := by
  rw [htext, hpos, List.set_append_right _ _ (Nat.le_refl _), Nat.sub_self]
  rfl

private theorem charAt_at (htext : text = a ++ c :: b) (hpos : pos = a.length) : charAt text pos = c := by
  rw [htext, hpos]
  simp [charAt]

private theorem cstr_at (htext : text = a ++ (s ++ 0 :: b)) (hpos : pos = a.length) (h : 0 ∉ s) :
    cstr text pos = s := by
  rw [htext, hpos, cstr, List.drop_left, List.takeWhile_append_of_pos]
  · simp
  · intro x hx
    simp only [decide_eq_true_eq]
    rintro rfl
    exact h hx

private theorem parseString_at (htext : text = a ++ (quoted s ++ b)) (hitem : item = (a.length, s.length + 2)) :
    wsj1MsgParseString text item = (a ++ quote :: (s ++ 0 :: b), a.length + 1) := by
  have hquote : charAt text item.1 = quote :=
    charAt_at (a := a) (b := s ++ [quote] ++ b) (by rw [htext]; rfl) (by rw [hitem])
  rw [wsj1MsgParseString, if_pos ⟨by rw [hitem]; dsimp only; omega, hquote⟩, wsj1MsgParseExtract, hitem]
  dsimp only
  rw [set_at (a := a ++ quote :: s) (c := quote) (b := b) (by rw [htext]; simp [quoted])
    (by simp only [List.length_append, List.length_cons]; omega)]
  simp

private theorem parseExtract_at (htext : text = a ++ (s ++ c :: b)) (hitem : item = (a.length, s.length)) :
    wsj1MsgParseExtract text item = (a ++ (s ++ 0 :: b), a.length) := by
  rw [wsj1MsgParseExtract, hitem]
  dsimp only
  rw [set_at (a := a ++ s) (c := c) (b := b) (by rw [htext, List.append_assoc]) List.length_append.symm,
    List.append_assoc]

end

section
variable {h s o b : Bytes} {c : UInt8} {items : List (Nat × Nat)}

/-- A string then an object, after three bytes. -/
theorem split_two (hh : h.length = 3) :
    wsj1MsgParseString (h ++ (quoted s ++ comma :: (o ++ c :: b))) (3, s.length + 2) =
        (h ++ quote :: (s ++ 0 :: comma :: (o ++ c :: b)), 4) ∧
      wsj1MsgParseExtract (h ++ quote :: (s ++ 0 :: comma :: (o ++ c :: b))) (s.length + 6, o.length) =
        (h ++ quote :: (s ++ 0 :: comma :: (o ++ 0 :: b)), s.length + 6) := by
  have hpos : (h ++ quote :: (s ++ [0, comma])).length = s.length + 6 := by
    simp only [List.length_append, List.length_cons, List.length_nil, hh]
    omega
  constructor
  · rw [parseString_at rfl (by rw [hh]), hh]
  · rw [parseExtract_at (a := h ++ quote :: (s ++ [0, comma])) (s := o) (c := c) (b := b) (by simp) (by rw [hpos]),
      hpos]
    simp

private theorem cstr_two (hh : h.length = 3) (hs : 0 ∉ s) (ho : 0 ∉ o) :
    cstr (h ++ quote :: (s ++ 0 :: comma :: (o ++ 0 :: b))) 4 = s ∧
      cstr (h ++ quote :: (s ++ 0 :: comma :: (o ++ 0 :: b))) (s.length + 6) = o := by
  constructor
  · exact cstr_at (a := h ++ [quote]) (b := comma :: (o ++ 0 :: b)) (by simp) (by simp [hh]) hs
  · refine cstr_at (a := h ++ quote :: (s ++ [0, comma])) (b := b) (by simp) ?_ ho
    simp only [List.length_append, List.length_cons, List.length_nil, hh]
    omega

private theorem makeReply_view {code : Code} (hh : h.length = 3) (hs : 0 ∉ s) (ho : 0 ∉ o)
    (hn : items.length = 3 ∨ items.length = 4) (h1 : items.getD 1 (0, 0) = (3, s.length + 2))
    (h2 : items.getD 2 (0, 0) = (s.length + 6, o.length)) :
    (makeReply code (h ++ (quoted s ++ comma :: (o ++ c :: b))) items).map Msg.view =
      some ⟨code, some s, none, none, none, o, o.length, none⟩ := by
  obtain ⟨hid, hobject⟩ := split_two (s := s) (o := o) (c := c) (b := b) hh
  obtain ⟨hcid, hcobject⟩ := cstr_two (b := b) hh hs ho
  rw [makeReply]
  dsimp only
  rw [if_neg (by omega), if_neg (by omega), h1, h2, hid]
  dsimp only
  rw [hobject]
  simp [Msg.view, hcid, hcobject]

private theorem makeEvent_view (hh : h.length = 3) (hs : 0 ∉ s) (ho : 0 ∉ o) (hn : items.length = 3)
    (h1 : items.getD 1 (0, 0) = (3, s.length + 2)) (h2 : items.getD 2 (0, 0) = (s.length + 6, o.length)) :
    (makeEvent (h ++ (quoted s ++ comma :: (o ++ c :: b))) items).map Msg.view =
      some ⟨.event, none, none, none, some s, o, o.length, none⟩ := by
  obtain ⟨hid, hobject⟩ := split_two (s := s) (o := o) (c := c) (b := b) hh
  obtain ⟨hcid, hcobject⟩ := cstr_two (b := b) hh hs ho
  rw [makeEvent]
  dsimp only
  rw [if_neg (not_not.mpr hn), h1, h2, hid]
  dsimp only
  rw [hobject]
  simp [Msg.view, hcid, hcobject]

end

section
variable {h s api verb o b : Bytes} {c : UInt8} {items : List (Nat × Nat)}

/-- The text of a call once it is split, up to its object. -/
private def splitCall (h s api verb o b : Bytes) : Bytes :=
  h ++ quote :: (s ++ 0 :: comma :: quote :: (api ++ 0 :: (verb ++ 0 :: comma :: (o ++ b))))

/-- The text before the verb of a call that is split, and before its object. -/
private def beforeVerb (h s api : Bytes) : Bytes :=
  h ++ quote :: (s ++ 0 :: comma :: quote :: (api ++ [0]))

private def beforeObject (h s api verb : Bytes) : Bytes := beforeVerb h s api ++ (verb ++ [0, comma])

private theorem splitCall_verb :
    splitCall h s api verb o b = beforeVerb h s api ++ (verb ++ 0 :: comma :: (o ++ b)) := by
  simp [splitCall, beforeVerb]

private theorem splitCall_object : splitCall h s api verb o b = beforeObject h s api verb ++ (o ++ b) := by
  simp [splitCall_verb, beforeObject]

private theorem length_beforeVerb (hh : h.length = 3) :
    (beforeVerb h s api).length = s.length + 7 + api.length + 1 := by
  simp only [beforeVerb, List.length_append, List.length_cons, List.length_nil, hh]
  omega

private theorem length_beforeObject (hh : h.length = 3) :
    (beforeObject h s api verb).length = s.length + api.length + verb.length + 10 := by
  simp only [beforeObject, List.length_append, List.length_cons, List.length_nil, length_beforeVerb hh]
  omega

private theorem split_tag {t : Bytes} (hh : h.length = 3) :
    wsj1MsgParseString (h ++ (quoted s ++ comma :: (quoted t ++ b))) (3, s.length + 2) =
        (h ++ quote :: (s ++ 0 :: comma :: (quoted t ++ b)), 4) ∧
      wsj1MsgParseString (h ++ quote :: (s ++ 0 :: comma :: (quoted t ++ b))) (s.length + 6, t.length + 2) =
        (h ++ quote :: (s ++ 0 :: comma :: quote :: (t ++ 0 :: b)), s.length + 7) := by
  have hpos : (h ++ quote :: (s ++ [0, comma])).length = s.length + 6 := by
    simp only [List.length_append, List.length_cons, List.length_nil, hh]
    omega
  constructor
  · rw [parseString_at rfl (by rw [hh]), hh]
  · rw [parseString_at (a := h ++ quote :: (s ++ [0, comma])) (s := t) (b := b) (by simp) (by rw [hpos]), hpos]
    simp

private theorem strchr_tag (hh : h.length = 3) (hapi : 0 ∉ api) (hverb : 0 ∉ verb) (hslash : slash ∉ api) :
    strchr (h ++ quote :: (s ++ 0 :: comma :: quote :: (api ++ slash :: verb ++ 0 :: b))) (s.length + 7) slash =
      some (s.length + 7 + api.length) := by
  have hstring : cstr (h ++ quote :: (s ++ 0 :: comma :: quote :: (api ++ slash :: verb ++ 0 :: b)))
      (s.length + 7) = api ++ slash :: verb := by
    refine cstr_at (a := h ++ quote :: (s ++ [0, comma, quote])) (b := b) (by simp) ?_ ?_
    · simp only [List.length_append, List.length_cons, List.length_nil, hh]
      omega
    · simp only [List.mem_append, List.mem_cons, not_or]
      exact ⟨hapi, by decide, hverb⟩
  rw [strchr, hstring, if_pos (by simp), List.idxOf_append_of_notMem hslash, List.idxOf_cons_self]
  rfl

private theorem set_slash (hh : h.length = 3) :
    (h ++ quote :: (s ++ 0 :: comma :: quote :: (api ++ slash :: verb ++ 0 :: comma :: (o ++ b)))).set
      (s.length + 7 + api.length) 0 = splitCall h s api verb o b := by
  rw [set_at (a := h ++ quote :: (s ++ 0 :: comma :: quote :: api)) (c := slash)
    (b := verb ++ 0 :: comma :: (o ++ b)) (by simp)]
  · simp [splitCall]
  · simp only [List.length_append, List.length_cons, hh]
    omega

private theorem charAt_verb (hh : h.length = 3) (hverb : 0 ∉ verb) (hne : verb ≠ [])
    (hslash : verb.head? ≠ some slash) :
    ¬ (charAt (splitCall h s api verb o b) (s.length + 7 + api.length + 1) = 0 ∨
      charAt (splitCall h s api verb o b) (s.length + 7 + api.length + 1) = slash) := by
  obtain ⟨v, verb, rfl⟩ := List.exists_cons_of_ne_nil hne
  rw [splitCall_verb, List.cons_append, charAt_at rfl (length_beforeVerb hh).symm]
  rintro (rfl | rfl)
  · exact hverb List.mem_cons_self
  · exact hslash rfl

private theorem cstr_call (hh : h.length = 3) (hs : 0 ∉ s) (hapi : 0 ∉ api) (hverb : 0 ∉ verb) (ho : 0 ∉ o) :
    cstr (splitCall h s api verb o (0 :: b)) 4 = s ∧
      cstr (splitCall h s api verb o (0 :: b)) (s.length + 7) = api ∧
      cstr (splitCall h s api verb o (0 :: b)) (s.length + 7 + api.length + 1) = verb ∧
      cstr (splitCall h s api verb o (0 :: b)) (s.length + api.length + verb.length + 10) = o := by
  refine ⟨?_, ?_, ?_, ?_⟩
  · exact cstr_at (a := h ++ [quote]) (b := comma :: quote :: (api ++ 0 :: (verb ++ 0 :: comma :: (o ++ 0 :: b))))
      (by simp [splitCall]) (by simp [hh]) hs
  · refine cstr_at (a := h ++ quote :: (s ++ [0, comma, quote])) (b := verb ++ 0 :: comma :: (o ++ 0 :: b))
      (by simp [splitCall]) ?_ hapi
    simp only [List.length_append, List.length_cons, List.length_nil, hh]
    omega
  · exact cstr_at splitCall_verb (length_beforeVerb hh).symm hverb
  · exact cstr_at splitCall_object (length_beforeObject hh).symm ho

/-- A call up to its object. -/
theorem makeCall_eq (hh : h.length = 3) (hapi : 0 ∉ api) (hverb : 0 ∉ verb)
    (hslash : slash ∉ api) (hne : verb ≠ []) (hhead : verb.head? ≠ some slash)
    (hn : items.length = 4 ∨ items.length = 5) (h1 : items.getD 1 (0, 0) = (3, s.length + 2))
    (h2 : items.getD 2 (0, 0) = (s.length + 6, (api ++ slash :: verb).length + 2))
    (h3 : items.getD 3 (0, 0) = (s.length + api.length + verb.length + 10, o.length)) :
    makeCall (h ++ (quoted s ++ comma :: (quoted (api ++ slash :: verb) ++ comma :: (o ++ c :: b)))) items =
      let token := if items.length = 5
        then some (wsj1MsgParseString (splitCall h s api verb o (0 :: b)) (items.getD 4 (0, 0))) else none
      some {
        text := (token.map Prod.fst).getD (splitCall h s api verb o (0 :: b))
        code := .call
        id := some 4
        api := some (s.length + 7)
        verb := some (s.length + 7 + api.length + 1)
        event := none
        objectS := s.length + api.length + verb.length + 10
        objectSLength := o.length
        token := token.map Prod.snd } := by
  obtain ⟨hid, htag⟩ := split_tag (s := s) (t := api ++ slash :: verb) (b := comma :: (o ++ c :: b)) hh
  have hobject : wsj1MsgParseExtract (splitCall h s api verb o (c :: b))
      (s.length + api.length + verb.length + 10, o.length) =
        (splitCall h s api verb o (0 :: b), s.length + api.length + verb.length + 10) := by
    rw [parseExtract_at splitCall_object (by rw [length_beforeObject hh]), length_beforeObject hh,
      ← splitCall_object]
  rw [makeCall]
  dsimp only
  rw [if_neg (by omega), h1, h2, h3, hid]
  dsimp only
  rw [htag]
  dsimp only
  rw [strchr_tag hh hapi hverb hslash, Option.bind_some, set_slash hh,
    if_neg (charAt_verb hh hverb hne hhead), hobject]

private theorem makeCall_view (hh : h.length = 3) (hs : 0 ∉ s) (hapi : 0 ∉ api) (hverb : 0 ∉ verb)
    (ho : 0 ∉ o) (hslash : slash ∉ api) (hne : verb ≠ []) (hhead : verb.head? ≠ some slash)
    (hn : items.length = 4) (h1 : items.getD 1 (0, 0) = (3, s.length + 2))
    (h2 : items.getD 2 (0, 0) = (s.length + 6, (api ++ slash :: verb).length + 2))
    (h3 : items.getD 3 (0, 0) = (s.length + api.length + verb.length + 10, o.length)) :
    (makeCall (h ++ (quoted s ++ comma :: (quoted (api ++ slash :: verb) ++ comma :: (o ++ c :: b)))) items).map
      Msg.view = some ⟨.call, some s, some api, some verb, none, o, o.length, none⟩ := by
  obtain ⟨hcid, hcapi, hcverb, hcobject⟩ := cstr_call (b := b) hh hs hapi hverb ho
  rw [makeCall_eq hh hapi hverb hslash hne hhead (.inl hn) h1 h2 h3]
  dsimp only
  rw [if_neg (by omega)]
  simp [Msg.view, hcid, hcapi, hcverb, hcobject]

private theorem makeCall_view_token {t : Bytes} (hh : h.length = 3) (hs : 0 ∉ s) (hapi : 0 ∉ api)
    (hverb : 0 ∉ verb) (ho : 0 ∉ o) (ht : 0 ∉ t) (hslash : slash ∉ api) (hne : verb ≠ [])
    (hhead : verb.head? ≠ some slash)
    (hn : items.length = 5) (h1 : items.getD 1 (0, 0) = (3, s.length + 2))
    (h2 : items.getD 2 (0, 0) = (s.length + 6, (api ++ slash :: verb).length + 2))
    (h3 : items.getD 3 (0, 0) = (s.length + api.length + verb.length + 10, o.length))
    (h4 : items.getD 4 (0, 0) = (s.length + api.length + verb.length + 10 + o.length + 1, t.length + 2)) :
    (makeCall (h ++ (quoted s ++ comma :: (quoted (api ++ slash :: verb) ++ comma ::
      (o ++ c :: (quoted t ++ b))))) items).map Msg.view =
        some ⟨.call, some s, some api, some verb, none, o, o.length, some t⟩ := by
  obtain ⟨hcid, hcapi, hcverb, hcobject⟩ := cstr_call (b := quote :: (t ++ 0 :: b)) hh hs hapi hverb ho
  have hlength : (beforeObject h s api verb ++ (o ++ [0])).length =
      s.length + api.length + verb.length + 10 + o.length + 1 := by
    simp only [List.length_append, List.length_singleton, length_beforeObject hh]
    omega
  have htoken : wsj1MsgParseString (splitCall h s api verb o (0 :: (quoted t ++ b)))
      (s.length + api.length + verb.length + 10 + o.length + 1, t.length + 2) =
        (splitCall h s api verb o (0 :: quote :: (t ++ 0 :: b)),
          s.length + api.length + verb.length + 10 + o.length + 1 + 1) := by
    rw [parseString_at (a := beforeObject h s api verb ++ (o ++ [0])) (s := t) (b := b)
      (by simp [splitCall_object]) (by rw [hlength]), hlength]
    simp [splitCall_object]
  have hctoken : cstr (splitCall h s api verb o (0 :: quote :: (t ++ 0 :: b)))
      (s.length + api.length + verb.length + 10 + o.length + 1 + 1) = t := by
    refine cstr_at (a := beforeObject h s api verb ++ (o ++ [0, quote])) (b := b) (by simp [splitCall_object]) ?_ ht
    simp only [List.length_append, List.length_cons, List.length_nil, length_beforeObject hh]
    omega
  rw [makeCall_eq hh hapi hverb hslash hne hhead (.inr hn) h1 h2 h3]
  dsimp only
  rw [if_pos hn, h4, htoken]
  simp [Msg.view, hcid, hcapi, hcverb, hcobject, hctoken]

end

/-! What is sent is read. -/

/-- The three bytes before the first string. -/
private def start (i1 : Code) : Bytes := [lbracket, UInt8.ofNat (0x30 + i1.toNat), comma]

section
variable {i1 : Code} {s s2 o t : Bytes} {items : List Bytes}

private theorem joined_isot : lbracket :: joined [codeText i1, quoted s, o] =
    start i1 ++ (quoted s ++ comma :: (o ++ rbracket :: [])) := rfl

private theorem joined_isot_token : lbracket :: joined [codeText i1, quoted s, o, quoted t] =
    start i1 ++ (quoted s ++ comma :: (o ++ comma :: (quoted t ++ [rbracket]))) := rfl

private theorem joined_issot : lbracket :: joined [codeText i1, quoted s, quoted s2, o] =
    start i1 ++ (quoted s ++ comma :: (quoted s2 ++ comma :: (o ++ rbracket :: []))) := rfl

private theorem joined_issot_token : lbracket :: joined [codeText i1, quoted s, quoted s2, o, quoted t] =
    start i1 ++ (quoted s ++ comma :: (quoted s2 ++ comma :: (o ++ comma :: (quoted t ++ [rbracket])))) := rfl

private theorem length_quoted : (quoted s).length = s.length + 2 := by
  simp [quoted]

variable (i1) in
private theorem scan_sent (hn : items.length ≤ 9) (hsolid : ∀ x ∈ items, Solid x) :
    wsj1MsgScan (lbracket :: joined (codeText i1 :: items)) = some ((1, 1) :: layout 3 items) ∧
      codeOf (charAt (lbracket :: joined (codeText i1 :: items)) 1) = some i1 := by
  constructor
  · refine wsj1MsgScan_joined (List.cons_ne_nil _ _) (Nat.succ_le_succ hn) ?_
    rw [List.forall_mem_cons]
    exact ⟨solid_code i1, hsolid⟩
  · cases items <;> cases i1 <;> rfl

/-- The message of its kind. -/
private def make (text : Bytes) (items : List (Nat × Nat)) : Code → Option Msg
  | .call => makeCall text items
  | .retok => makeReply .retok text items
  | .reterr => makeReply .reterr text items
  | .event => makeEvent text items

private theorem wsj1MsgMake_sent (hn : items.length ≤ 9) (hsolid : ∀ x ∈ items, Solid x) :
    wsj1MsgMake (lbracket :: joined (codeText i1 :: items)) =
      make (lbracket :: joined (codeText i1 :: items)) ((1, 1) :: layout 3 items) i1 := by
  obtain ⟨hscan, hcode⟩ := scan_sent i1 hn hsolid
  rw [wsj1MsgMake, hscan, Option.bind_some]
  dsimp only
  rw [List.getD_cons_zero, if_neg (not_not.mpr rfl), hcode]
  cases i1 <;> rfl

private theorem Plain.noNul (h : Plain s) : 0 ∉ s := fun hmem => (h 0 hmem).2.2 rfl

private theorem layout_isot : layout 3 (quoted s :: o :: items) =
    (3, s.length + 2) :: (s.length + 6, o.length) :: layout (s.length + o.length + 7) items := by
  simp only [layout, length_quoted, List.cons.injEq, Prod.mk.injEq, and_true, true_and]
  exact ⟨by omega, congrArg (layout · items) (by omega)⟩

private theorem layout_issot : layout 3 (quoted s :: quoted s2 :: o :: items) =
    (3, s.length + 2) :: (s.length + 6, s2.length + 2) :: (s.length + s2.length + 9, o.length) ::
      layout (s.length + s2.length + 9 + o.length + 1) items := by
  simp only [layout, length_quoted, List.cons.injEq, Prod.mk.injEq, and_true, true_and]
  exact ⟨by omega, by omega, congrArg (layout · items) (by omega)⟩

end

/-! The kinds of messages. -/

section
variable {id name api verb o t : Bytes} {code : Code}

theorem reply_read (hcode : code = .retok ∨ code = .reterr) (hid : Plain id) (ho : Text o) :
    (wsj1MsgMake (lbracket :: joined [codeText code, quoted id, o])).map Msg.view =
      some ⟨code, some id, none, none, none, o, o.length, none⟩ := by
  rw [wsj1MsgMake_sent (by simp) (by simp [solid_quoted hid, solid_text ho]), layout_isot, joined_isot]
  rcases hcode with rfl | rfl <;> rw [make] <;>
  exact makeReply_view rfl hid.noNul ho.noNul (.inl rfl) rfl rfl

/-- The token of a reply is lost. -/
theorem reply_read_token (hcode : code = .retok ∨ code = .reterr) (hid : Plain id) (ho : Text o)
    (ht : Plain t) : (wsj1MsgMake (lbracket :: joined [codeText code, quoted id, o, quoted t])).map Msg.view =
      some ⟨code, some id, none, none, none, o, o.length, none⟩ := by
  rw [wsj1MsgMake_sent (by simp) (by simp [solid_quoted hid, solid_text ho, solid_quoted ht]), layout_isot,
    joined_isot_token]
  rcases hcode with rfl | rfl <;> rw [make] <;>
  exact makeReply_view rfl hid.noNul ho.noNul (.inr rfl) rfl rfl

theorem event_read (hname : Plain name) (ho : Text o) :
    (wsj1MsgMake (lbracket :: joined [codeText .event, quoted name, o])).map Msg.view =
      some ⟨.event, none, none, none, some name, o, o.length, none⟩ := by
  rw [wsj1MsgMake_sent (by simp) (by simp [solid_quoted hname, solid_text ho]), layout_isot, joined_isot,
    make]
  exact makeEvent_view rfl hname.noNul ho.noNul rfl rfl rfl

private theorem event_read_token (hname : Plain name) (ho : Text o) (ht : Plain t) :
    wsj1MsgMake (lbracket :: joined [codeText .event, quoted name, o, quoted t]) = none := by
  rw [wsj1MsgMake_sent (by simp) (by simp [solid_quoted hname, solid_text ho, solid_quoted ht]), layout_isot]
  rfl

private theorem plain_tag (hapi : Plain api) (hverb : Plain verb) : Plain (api ++ slash :: verb) := by
  rw [Plain, List.forall_mem_append, List.forall_mem_cons]
  exact ⟨hapi, by decide, hverb⟩

theorem call_read (hid : Plain id) (hapi : Plain api) (hslash : slash ∉ api) (hverb : Plain verb)
    (hne : verb ≠ []) (hhead : verb.head? ≠ some slash) (ho : Text o) :
    (wsj1MsgMake (lbracket :: joined [codeText .call, quoted id, quoted (api ++ slash :: verb), o])).map Msg.view =
      some ⟨.call, some id, some api, some verb, none, o, o.length, none⟩ := by
  have htag := plain_tag hapi hverb
  have hpos : id.length + (api ++ slash :: verb).length + 9 = id.length + api.length + verb.length + 10 := by
    simp only [List.length_append, List.length_cons]
    omega
  rw [wsj1MsgMake_sent (by simp) (by simp [solid_quoted hid, solid_quoted htag, solid_text ho]), layout_issot,
    joined_issot, make, hpos]
  exact makeCall_view rfl hid.noNul hapi.noNul hverb.noNul ho.noNul hslash hne hhead rfl rfl rfl rfl

private theorem call_read_token (hid : Plain id) (hapi : Plain api) (hslash : slash ∉ api) (hverb : Plain verb)
    (hne : verb ≠ []) (hhead : verb.head? ≠ some slash) (ho : Text o) (ht : Plain t) :
    (wsj1MsgMake (lbracket :: joined [codeText .call, quoted id, quoted (api ++ slash :: verb), o, quoted t])).map
      Msg.view = some ⟨.call, some id, some api, some verb, none, o, o.length, some t⟩ := by
  have htag := plain_tag hapi hverb
  have hpos : id.length + (api ++ slash :: verb).length + 9 = id.length + api.length + verb.length + 10 := by
    simp only [List.length_append, List.length_cons]
    omega
  rw [wsj1MsgMake_sent (by simp)
    (by simp [solid_quoted hid, solid_quoted htag, solid_text ho, solid_quoted ht]), layout_issot, joined_issot_token,
    make, hpos, layout, length_quoted]
  exact makeCall_view_token rfl hid.noNul hapi.noNul hverb.noNul ho.noNul ht.noNul hslash hne hhead rfl rfl rfl
    rfl rfl

end

def Body.isCall : Body → Bool
  | .call .. => true
  | _ => false

section
variable {m : Message}

theorem Message.Valid.objectText (h : m.Valid) : Text m.objectText := by
  rw [Message.objectText]
  cases ho : m.object with
  | none => exact .literal (by decide)
  | some o => exact h.object o ho

/-- Every message is read as it was sent, but the token of a reply, that is lost: wsj1_msg_make
looks for it when there are 5 items and accepts 3 or 4. -/
theorem sent_read_iff (m : Message) (h : m.Valid) : ∃ text, m.send = some text ∧
    ((wsj1MsgMake text).map Msg.view = some m.view ↔ m.token = none ∨ m.body.isCall = true) := by
  have ho := h.objectText
  obtain ⟨hbody, -, htoken⟩ := h
  obtain ⟨body, object, token⟩ := m
  cases body with
  | call id api verb =>
    obtain ⟨hid, hapi, hslash, hverb, hne, hhead⟩ := hbody
    refine ⟨_, wsj1SendIssot_eq, iff_of_true ?_ (.inr rfl)⟩
    cases token with
    | none => exact call_read hid hapi hslash hverb hne hhead ho
    | some t => exact call_read_token hid hapi hslash hverb hne hhead ho (htoken t rfl)
  | reply iserror id =>
    have hcode : (if iserror then Code.reterr else .retok) = .retok ∨
        (if iserror then Code.reterr else .retok) = .reterr := by cases iserror <;> decide
    refine ⟨_, wsj1SendIsot_eq, ?_⟩
    cases token with
    | none => exact iff_of_true (reply_read hcode hbody ho) (.inl rfl)
    | some t =>
      have hread := reply_read_token hcode hbody ho (htoken t rfl)
      refine iff_of_false (fun h => ?_) (by simp [Body.isCall])
      exact absurd (hread.symm.trans h) (by simp [Message.view])
  | event name =>
    refine ⟨_, wsj1SendIsot_eq, ?_⟩
    cases token with
    | none => exact iff_of_true (event_read hbody ho) (.inl rfl)
    | some t =>
      have hread := event_read_token hbody ho (htoken t rfl)
      refine iff_of_false (fun h => ?_) (by simp [Body.isCall])
      exact absurd ((congrArg (·.map Msg.view) hread).symm.trans h) (by simp)

end

theorem plain_of_all {s : Bytes} (h : s.all fun b => b ≠ quote ∧ b ≠ backslash ∧ b ≠ 0) : Plain s := by
  simpa [Plain] using h

/-- A call of the verb ping of the api hello. -/
private def ping : Message where
  body := .call (ascii "999999") (ascii "hello") (ascii "ping")
  object := some (ascii "[true,null]")
  token := some (ascii "tok")

private theorem ping_valid : ping.Valid where
  body := ⟨plain_of_all (by decide), plain_of_all (by decide), by decide, plain_of_all (by decide), by decide, by decide⟩
  object := by
    rintro o ho
    cases ho
    have hws : Ws [] := by simp [Ws]
    exact .array (.elements hws (.literal (x := ascii "true") (by decide)) hws
      (.element hws (.literal (x := ascii "null") (by decide)) hws))
  token := by
    rintro t ht
    cases ht
    exact plain_of_all (by decide)

theorem sent_read_iff_sample : ping.send = some (ascii "[2,\"999999\",\"hello/ping\",[true,null],\"tok\"]") ∧
    ∃ text, ping.send = some text ∧ (wsj1MsgMake text).map Msg.view = some ping.view := by
  refine ⟨by decide +kernel, ?_⟩
  obtain ⟨text, hsend, hread⟩ := sent_read_iff ping ping_valid
  exact ⟨text, hsend, hread.mpr (.inr rfl)⟩

/-- A reply with a token, the text sent being [3,"1",null,"tok"]. -/
theorem reply_token_lost : ¬ ∀ m : Message, m.Valid → ∀ text, m.send = some text →
    (wsj1MsgMake text).map Msg.view = some m.view := by
  intro hall
  have hvalid : (⟨.reply false (ascii "1"), none, some (ascii "tok")⟩ : Message).Valid := by
    refine ⟨plain_of_all (by decide), fun o ho => (nomatch ho), ?_⟩
    rintro t ht
    cases ht
    exact plain_of_all (by decide)
  have hread := hall _ hvalid _ wsj1SendIsot_eq
  exact absurd hread (by decide +kernel)

end AfbBinder.Wsj1
