import Mathlib.Data.List.GetD
import AfbBinder.Lib.Lists
import AfbBinder.Wsj1.Calls
import AfbBinder.Wsj1.RoundTrip

/-! The callback of a pending call is called once. -/
namespace AfbBinder.Wsj1
open Lib.Cstrings Lib.Json Lib.Runs

section
variable {calls : List Call} {c : Call} {id : Bytes}

/-! Searching a call. -/

private theorem search_some (hids : (calls.map Call.id).Nodup) (hc : c ∈ calls) :
    wsj1LockedCallSearch calls c.id true = (some c, calls.erase c) := by
  simp only [wsj1LockedCallSearch, strcmp_eq, Lib.Lists.find_key hids hc, Lib.Lists.eraseP_key hids hc, if_true]

private theorem search_none (h : id ∉ calls.map Call.id) (remove : Bool) :
    (wsj1LockedCallSearch calls id remove).1 = none := by
  rw [wsj1LockedCallSearch, List.find?_eq_none]
  intro d hd
  simp only [strcmp_eq, decide_eq_true_eq]
  exact fun h' => h (List.mem_map.mpr ⟨d, hd, h'⟩)

private theorem search_isSome : (wsj1LockedCallSearch calls id false).1.isSome = true ↔
    id ∈ calls.map Call.id := by
  simp [wsj1LockedCallSearch, strcmp_eq]

theorem search_new : (wsj1LockedCallSearch (c :: calls) c.id true).2 = calls := by
  simp [wsj1LockedCallSearch, strcmp_eq]

/-! The loop of wsj1_call_create. -/

theorem nextId_some {n genid k : Nat} (hg : genid ≤ 999999) (h : nextId calls n genid = some k) :
    1 ≤ k ∧ k ≤ 999999 ∧ decimal k ∉ calls.map Call.id := by
  induction n generalizing genid with
  | zero => exact nomatch h
  | succ n ih =>
    rw [nextId] at h
    split_ifs at h with hzero hused hused
    · exact ih (by omega) h
    · rw [← Option.some.inj h]
      exact ⟨by omega, by omega, fun hmem => hused (search_isSome.mpr hmem)⟩
    · exact ih (by omega) h
    · rw [← Option.some.inj h]
      exact ⟨by omega, hg, fun hmem => hused (search_isSome.mpr hmem)⟩

/-- The numbers tried go down and wrap. -/
theorem nextId_none {n genid : Nat} (hn : n ≤ 999999) (hg : genid ≤ 999999)
    (h : nextId calls n genid = none) {i : Nat} (hi : i < n) :
    decimal ((genid + 999998 - i) % 999999 + 1) ∈ calls.map Call.id := by
  induction n generalizing genid i with
  | zero => exact absurd hi (Nat.not_lt_zero _)
  | succ n ih =>
    have hfirst : (if genid = 0 then 999999 else genid) = (genid + 999998) % 999999 + 1 := by
      split_ifs <;> omega
    rw [nextId] at h
    rw [hfirst] at h
    split_ifs at h with hused
    cases i with
    | zero => exact search_isSome.mp hused
    | succ i =>
      have hrest := ih (by omega) (by omega) h (i := i) (by omega)
      rwa [show ((genid + 999998) % 999999 + 1 - 1 + 999998 - i) % 999999 = (genid + 999998 - (i + 1)) % 999999 by
        omega] at hrest

/-- The loop ends when fewer than 999999 calls are pending. -/
theorem nextId_ends {genid : Nat} (hg : genid ≤ 999999) (hlen : calls.length < 999999) :
    ∃ k, nextId calls 999999 genid = some k := by
  rw [← Option.isSome_iff_exists, Option.isSome_iff_ne_none]
  intro hnone
  have hall (n : Nat) (hn : n < 999999) : decimal (n + 1) ∈ calls.map Call.id := by
    have hused := nextId_none (Nat.le_refl _) hg hnone (i := (genid + 999998 - n) % 999999)
      (Nat.mod_lt _ (by decide))
    rwa [show (genid + 999998 - (genid + 999998 - n) % 999999) % 999999 = n by omega] at hused
  have hle := Lib.Lists.le_length_of_injOn (f := fun n => decimal (n + 1))
    (fun m _ n _ h => Nat.succ.inj (decimal_injective h)) hall
  rw [List.length_map] at hle
  omega

end

/-! The reply made for a pending call by the hangup. -/

theorem plain_decimal (n : Nat) : Plain (decimal n) := by
  intro b hb
  have hdigit := digit_of_mem_decimal hb
  refine ⟨?_, ?_, ?_⟩ <;> rintro rfl <;> exact absurd hdigit (by unfold Digit; decide)

theorem text_errorObjectStr : Text errorObjectStr := by
  have hws : Ws [] := by simp [Ws]
  have hchars {x : Bytes} (h : x.all fun b => 0x20 ≤ b ∧ b ≠ quote ∧ b ≠ backslash) : Chars x := chars_of_all h
  have hstatus : Derives .value (quote :: (ascii "disconnected" ++ [quote])) := .string (hchars (by decide))
  have hinfo : Derives .value (quote :: (ascii "server hung up" ++ [quote])) := .string (hchars (by decide))
  have hjtype : Derives .value (quote :: (ascii "afb-reply" ++ [quote])) := .string (hchars (by decide))
  have hrequest := Derives.object (.members (k := ascii "status") hws (hchars (by decide)) hws hws hstatus hws
    (.member (k := ascii "info") hws (hchars (by decide)) hws hws hinfo hws))
  have htext := Derives.object (.members (k := ascii "jtype") hws (hchars (by decide)) hws hws hjtype hws
    (.member (k := ascii "request") hws (hchars (by decide)) hws hws hrequest hws))
  obtain ⟨x, hx, rfl⟩ : ∃ x, Derives .value x ∧ errorObjectStr = x := ⟨_, htext, by decide +kernel⟩
  exact hx

theorem hangupText_eq (id : Bytes) :
    hangupText id = lbracket :: joined [codeText .reterr, quoted id, errorObjectStr] := by
  obtain ⟨h1, h2, h3, -, h5, -⟩ := marks
  have hcode : decimal Code.reterr.toNat = codeText .reterr := by decide
  simp [hangupText, h1, h2, h3, h5, hcode, joined, quoted]

private theorem hangupText_read (n : Nat) : ∃ msg, wsj1MsgMake (hangupText (decimal n)) = some msg := by
  have hread := reply_read (.inr rfl) (plain_decimal n) text_errorObjectStr
  rw [← hangupText_eq, Option.map_eq_some_iff] at hread
  obtain ⟨msg, hmake, -⟩ := hread
  exact ⟨msg, hmake⟩

/-! The invariant. -/

def Event.calls (number : Nat) : Event → Bool
  | .callback n _ => n = number
  | _ => false

/-- How many times the callback of a call was called. -/
def AfbWsj1.called (s : AfbWsj1) (number : Nat) : Nat := s.events.countP (Event.calls number)

/-- A call that did not fail is pending or called back, once. -/
structure Inv (s : AfbWsj1) : Prop where
  genid : s.genid ≤ 999999
  ids : (s.calls.map Call.id).Nodup
  decimals : ∀ c ∈ s.calls, ∃ n, c.id = decimal n
  balance : ∀ k, s.called k + (s.calls.map Call.number).count k = if 0 ≤ s.results.getD k (-1) then 1 else 0
  hungup : s.connected = false → s.calls = []

theorem inv_start : Inv .start where
  genid := Nat.zero_le _
  ids := List.nodup_nil
  decimals := by simp [AfbWsj1.start]
  balance k := by simp [AfbWsj1.called, AfbWsj1.start]
  hungup := by simp [AfbWsj1.start]

section
variable {itf : Itf} {s t : AfbWsj1}

private theorem called_tell (es : List Event) (k : Nat) :
    (s.tell es).called k = s.called k + es.countP (Event.calls k) := List.countP_append

/-- What is told without a callback keeps the invariant. -/
theorem Inv.tell (hs : Inv s) {es : List Event} (hes : ∀ e ∈ es, ∀ k, Event.calls k e = false) :
    Inv (s.tell es) where
  genid := hs.genid
  ids := hs.ids
  decimals := hs.decimals
  balance k := by
    have hzero : es.countP (Event.calls k) = 0 := by
      rw [List.countP_eq_zero]
      intro e he
      rw [hes e he k]
      exact Bool.false_ne_true
    rw [called_tell, hzero]
    exact hs.balance k
  hungup := hs.hungup

private theorem inv_close (hs : Inv s) (code : Nat) : Inv (s.afbWsClose code) := by
  rw [AfbWsj1.afbWsClose]
  split_ifs
  · exact hs.tell (by simp [Event.calls])
  · exact hs

private theorem getD_result (results : List Int) (rc : Int) (k : Nat) :
    (results ++ [rc]).getD k (-1) = if k = results.length then rc else results.getD k (-1) := by
  split_ifs with h
  · simp [h]
  · by_cases hk : k < results.length
    · rw [List.getD_append _ _ _ _ hk]
    · rw [List.getD_eq_default _ _ (by rw [List.length_append, List.length_singleton]; omega),
        List.getD_eq_default _ _ (by omega)]

/-- What a call does: it is pending when it does not fail. -/
theorem call_spec {api verb : Bytes} {object : Option Bytes} {written : Int}
    (h : afbWsj1CallS s api verb object written = some t) :
    ∃ (id : Nat) (rc : Int) (texts : List Bytes), nextId s.calls 999999 s.genid = some id ∧
      (s.connected = false → rc < 0) ∧ t = { s.tell (texts.map .sent) with
        genid := id - 1
        calls := if rc < 0 then s.calls else ⟨decimal id, s.results.length⟩ :: s.calls
        results := s.results ++ [rc] } := by
  simp only [afbWsj1CallS, wsj1CallCreate, Option.map_map, Option.map_eq_some_iff, Function.comp_apply] at h
  obtain ⟨id, hid, rfl⟩ := h
  have hremoved : (wsj1LockedCallSearch (⟨decimal id, s.results.length⟩ :: s.calls) (decimal id) true).2 = s.calls :=
    search_new
  rw [hremoved]
  refine ⟨id, if (wsj1SendIssot s.connected .call (decimal id) (api ++ slash :: verb) object none).isSome then written
    else -1, _, hid, fun hoff => ?_, rfl⟩
  rw [hoff]
  exact Int.negSucc_lt_zero 0

theorem inv_call {api verb : Bytes} {object : Option Bytes} {written : Int} (hs : Inv s)
    (h : afbWsj1CallS s api verb object written = some t) : Inv t := by
  obtain ⟨id, rc, texts, hid, hoff, rfl⟩ := call_spec h
  obtain ⟨hpos, hle, hnew⟩ := nextId_some hs.genid hid
  have htold : Inv (s.tell (texts.map .sent)) := hs.tell (by simp [Event.calls])
  have hcount (k : Nat) : (s.tell (texts.map .sent)).called k + (s.calls.map Call.number).count k =
      if 0 ≤ s.results.getD k (-1) then 1 else 0 := htold.balance k
  refine ⟨?_, ?_, ?_, ?_, ?_⟩
  · exact Nat.le_trans (Nat.sub_le _ _) hle
  · dsimp only
    split_ifs
    · exact hs.ids
    · exact List.nodup_cons.mpr ⟨hnew, hs.ids⟩
  · dsimp only
    split_ifs
    · exact hs.decimals
    · rw [List.forall_mem_cons]
      exact ⟨⟨id, rfl⟩, hs.decimals⟩
  · intro k
    have hk := hcount k
    dsimp only
    rw [getD_result]
    by_cases hnew : k = s.results.length
    · -- nothing was told of a call before it is made
      rw [List.getD_eq_default _ _ (Nat.le_of_eq hnew.symm), if_neg (by decide)] at hk
      rw [if_pos hnew]
      by_cases hrc : rc < 0
      · rw [if_pos hrc, if_neg (by omega)]
        exact hk
      · rw [if_neg hrc, if_pos (by omega), List.map_cons, hnew, List.count_cons_self, ← hnew]
        exact congrArg (· + 1) hk
    · rw [if_neg hnew]
      split_ifs at hk ⊢ <;> first
        | exact hk
        | rwa [List.map_cons, List.count_cons_of_ne (Ne.symm hnew)]
  · intro hdis
    rw [if_pos (hoff hdis)]
    exact hs.hungup hdis

/-- A reply calls the callback of the pending call with its id and removes it. -/
theorem wsj1OnText_reply {text : Bytes} {msg : Msg} {c : Call} (hs : Inv s)
    (hmake : wsj1MsgMake text = some msg) (hcode : msg.code = .retok ∨ msg.code = .reterr) (hc : c ∈ s.calls)
    (hid : c.id = msg.idString) :
    wsj1OnText itf s text = { s.tell [.callback c.number msg] with calls := s.calls.erase c } := by
  have hfound := search_some hs.ids hc
  rw [hid] at hfound
  rcases hcode with hcode | hcode <;> simp only [wsj1OnText, hmake, hcode, hfound]

private theorem wsj1OnText_unknown {text : Bytes} {msg : Msg} (hmake : wsj1MsgMake text = some msg)
    (hcode : msg.code = .retok ∨ msg.code = .reterr) (hid : msg.idString ∉ s.calls.map Call.id) :
    wsj1OnText itf s text = s.afbWsClose WEBSOCKET_CODE_POLICY_VIOLATION := by
  have hfound := search_none hid true
  rcases hcode with hcode | hcode <;> simp only [wsj1OnText, hmake, hcode, hfound]

private theorem inv_callback (hs : Inv s) {c : Call} (hc : c ∈ s.calls) (msg : Msg) :
    Inv { s.tell [.callback c.number msg] with calls := s.calls.erase c } where
  genid := hs.genid
  ids := hs.ids.sublist (List.erase_sublist.map _)
  decimals d hd := hs.decimals d (List.mem_of_mem_erase hd)
  balance k := by
    have hk := hs.balance k
    have hperm := ((List.perm_cons_erase hc).map Call.number).count_eq k
    rw [List.map_cons, List.count_cons] at hperm
    have htold : ({ s.tell [.callback c.number msg] with calls := s.calls.erase c } : AfbWsj1).called k =
        s.called k + if c.number == k then 1 else 0 := by
      rw [← List.countP_singleton]
      exact called_tell _ k
    rw [htold]
    refine Eq.trans ?_ hk
    rw [hperm]
    dsimp only
    omega
  hungup hoff := absurd hc (by rw [hs.hungup hoff]; exact List.not_mem_nil)

theorem inv_text (hs : Inv s) (text : Bytes) : Inv (wsj1OnText itf s text) := by
  cases hmake : wsj1MsgMake text with
  | none =>
    rw [wsj1OnText, hmake]
    exact inv_close hs _
  | some msg =>
    have hreply (hcode : msg.code = .retok ∨ msg.code = .reterr) : Inv (wsj1OnText itf s text) := by
      by_cases hid : msg.idString ∈ s.calls.map Call.id
      · obtain ⟨c, hc, hid⟩ := List.mem_map.mp hid
        rw [wsj1OnText_reply hs hmake hcode hc hid]
        exact inv_callback hs hc msg
      · rw [wsj1OnText_unknown hmake hcode hid]
        exact inv_close hs _
    cases hcode : msg.code with
    | call =>
      simp only [wsj1OnText, hmake, hcode]
      exact hs.tell (by simp [Event.calls])
    | retok => exact hreply (.inl hcode)
    | reterr => exact hreply (.inr hcode)
    | event =>
      simp only [wsj1OnText, hmake, hcode]
      split_ifs
      · exact hs.tell (by simp [Event.calls])
      · exact hs

/-- The hangup calls the callback of each pending call. -/
theorem countP_hangup {calls : List Call} (hdec : ∀ c ∈ calls, ∃ n, c.id = decimal n) (k : Nat) :
    (calls.filterMap fun call => (wsj1MsgMake (hangupText call.id)).map fun msg =>
      Event.callback call.number msg).countP (Event.calls k) = (calls.map Call.number).count k := by
  induction calls with
  | nil => rfl
  | cons c calls ih =>
    rw [List.forall_mem_cons] at hdec
    obtain ⟨⟨n, hn⟩, hdec⟩ := hdec
    obtain ⟨msg, hmake⟩ := hangupText_read n
    rw [List.filterMap_cons_some (by rw [hn, hmake]; rfl), List.countP_cons, ih hdec, List.map_cons,
      List.count_cons]
    simp [Event.calls]

theorem inv_hangup (hs : Inv s) : Inv (afbWsHangup itf s) := by
  rw [afbWsHangup]
  split_ifs with hon
  · refine ⟨hs.genid, List.nodup_nil, fun c hc => absurd hc List.not_mem_nil, fun k => ?_, fun _ => rfl⟩
    have hend : (if itf.onHangup then [Event.onHangup] else []).countP (Event.calls k) = 0 := by
      cases itf.onHangup <;> rfl
    rw [AfbWsj1.called, wsj1OnHangup]
    dsimp only
    rw [List.countP_append, List.countP_append, countP_hangup hs.decimals, hend]
    exact hs.balance k
  · exact hs

private theorem inv_step {a : Action} (hs : Inv s) (h : step itf s a = some t) : Inv t := by
  cases a with
  | call api verb object written => exact inv_call hs h
  | text text =>
    rw [← Option.some.inj h]
    exact inv_text hs text
  | hangup =>
    rw [← Option.some.inj h]
    exact inv_hangup hs

private theorem step_ends {a : Action} (hs : Inv s) (hlen : s.calls.length < 999999) : ∃ t, step itf s a =
    some t := by
  cases a with
  | call api verb object written =>
    obtain ⟨k, hk⟩ := nextId_ends hs.genid hlen
    exact ⟨_, by rw [step, afbWsj1CallS, wsj1CallCreate, hk]; rfl⟩
  | text text => exact ⟨_, rfl⟩
  | hangup => exact ⟨_, rfl⟩

end

/-- In the state that any run reaches: the ids of the pending calls are distinct, a reply calls
the callback of the pending call with its id and removes it, or none, and a call failed and its
callback is not called, or is called at most once, and once after the hangup. The run exists
with fewer than 999999 pending calls. -/
theorem pending_calls_answered (itf : Itf) (as : List Action)
    (h : Along (step itf) (fun s _ => s.calls.length < 999999) .start as) :
    ∃ s, exec (step itf) .start as = some s ∧ (s.calls.map Call.id).Nodup ∧
      (∀ text msg, wsj1MsgMake text = some msg → msg.code = .retok ∨ msg.code = .reterr →
        (∀ c ∈ s.calls, c.id = msg.idString →
          step itf s (.text text) =
            some { s.tell [.callback c.number msg] with calls := s.calls.erase c }) ∧
        (msg.idString ∉ s.calls.map Call.id →
          step itf s (.text text) = some (s.afbWsClose WEBSOCKET_CODE_POLICY_VIOLATION))) ∧
      ∀ k rc, s.results[k]? = some rc →
        (rc < 0 → s.called k = 0) ∧ (0 ≤ rc → s.called k ≤ 1 ∧ (s.connected = false → s.called k = 1)) := by
  have hstep (s : AfbWsj1) (a : Action) (hs : Inv s) (hlen : s.calls.length < 999999) :
      ∃ t, step itf s a = some t ∧ Inv t := by
    obtain ⟨t, ht⟩ := step_ends hs hlen
    exact ⟨t, ht, inv_step hs ht⟩
  obtain ⟨s, hrun, hs⟩ := exec_ends_along hstep inv_start h
  refine ⟨s, hrun, hs.ids, fun text msg hmake hcode => ⟨fun c hc hid => ?_, fun hid => ?_⟩, fun k rc hk => ?_⟩
  · exact congrArg some (wsj1OnText_reply hs hmake hcode hc hid)
  · exact congrArg some (wsj1OnText_unknown hmake hcode hid)
  · have hbalance := hs.balance k
    rw [List.getD_eq_getElem?_getD, hk, Option.getD_some] at hbalance
    split_ifs at hbalance with hrc
    · refine ⟨fun hneg => absurd hrc (by omega), fun _ => ⟨by omega, fun hoff => ?_⟩⟩
      rw [hs.hungup hoff] at hbalance
      exact hbalance
    · exact ⟨fun _ => by omega, fun hpos => absurd hpos hrc⟩

/-- A call is answered, another is pending when the websocket hangs up, and the last one fails. -/
private def answeredThenHungup : List Action :=
  [.call (ascii "hello") (ascii "ping") none 24, .call (ascii "hello") (ascii "pong") (some (ascii "true")) 24,
    .text (ascii "[3,\"999999\",null]"), .hangup, .call (ascii "hello") (ascii "ping") none 24]

theorem pending_calls_answered_sample :
    ∃ s, exec (step ⟨true, true⟩) .start answeredThenHungup = some s ∧ s.results = [24, 24, -1] ∧
      (0 ≤ (24 : Int) → s.called 1 ≤ 1 ∧ (s.connected = false → s.called 1 = 1)) := by
  obtain ⟨s, hrun, -, -, hcalls⟩ := pending_calls_answered ⟨true, true⟩ answeredThenHungup (by decide)
  have hresults : (exec (step ⟨true, true⟩) .start answeredThenHungup).map AfbWsj1.results = some [24, 24, -1] := by
    decide
  rw [hrun] at hresults
  have hs : s.results = [24, 24, -1] := Option.some.inj hresults
  exact ⟨s, hrun, hs, (hcalls 1 24 (by rw [hs]; rfl)).2⟩

end AfbBinder.Wsj1
