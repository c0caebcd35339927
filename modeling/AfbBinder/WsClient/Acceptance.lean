import AfbBinder.WsClient.Responses

/-! What receive_response accepts, against what an upgrade asks for. -/
namespace AfbBinder.WsClient
open Lib.Cstrings Lib.CrLf Lib.Loops
open Lib.Json (ascii)

/-- What the server says when it grants the upgrade, to the byte that is left unread first. -/
def Granted (server : Server) (protocols : List Bytes) (ack : Bytes) (r : Nat) (unread : Bytes) : Prop :=
  ∃ status headers after body, Head server.sent (status :: headers) after ∧ statusOk (cString status) = true ∧
    (textsOf secWebSocketAccept headers ≠ [] ∧ ∀ s ∈ textsOf secWebSocketAccept headers, s = ack) ∧
    (∀ s ∈ textsOf upgrade headers, s = ascii "websocket") ∧
    (∃ name ∈ namedProtocols headers, protocols[r]? = some name) ∧
    after = body ++ unread ∧ (body.length : Int) = bodyLength headers

/-- The checks that receive_response makes of a response: of lines that the array can hold, and of the
first words of their headers. -/
structure Passes (ack status : Bytes) (headers : List Bytes) : Prop where
  fits : ∀ line ∈ status :: headers, line.length + 2 ≤ LINESIZE
  status : statusOk (cString status) = true
  accept : agree secWebSocketAccept ack headers
  upgrade : agree upgrade (ascii "websocket") headers
  protocol : valuesOf secWebSocketProtocol headers ≠ []

/-- The second byte of the last line is a LF, or it was before these lines. -/
def lastSecond (lf : Bool) (ls : List Bytes) : Bool := (ls.getLast?.map secondLf).getD lf

/-- The server closes before the last LF of the head, and the last line has a LF second. -/
def Torn (server : Server) (status : Bytes) (headers : List Bytes) : Prop :=
  server.closes = true ∧ Head (server.sent ++ [LF]) (status :: headers) [] ∧
    lastSecond false (status :: headers) = true

/-- The length that is asked for the end of the body: of the last name. -/
def lastLength (headers : List Bytes) : Nat := (headers.getLast?.map fun line => nameLength (cString line)).getD 3

/-- The headers of this name have their first word only. -/
def OneWord (key : Bytes) (headers : List Bytes) : Prop :=
  ∀ line ∈ headers, Headed key line → headerText line = value (cString line)

/-- What the checks leave open: that there is the header of the key, that it and the header of the upgrade have
nothing after their first word, that the protocol is a proposed one, and that the reads of the body take the
bytes of the body. -/
def Safe (server : Server) (protocols : List Bytes) (ack : Bytes) : Prop :=
  (∀ status headers after, Head server.sent (status :: headers) after → Passes ack status headers →
    textsOf secWebSocketAccept headers ≠ [] ∧
    OneWord secWebSocketAccept headers ∧ OneWord upgrade headers ∧
    (∀ name, (valuesOf secWebSocketProtocol headers).getLast? = some name →
      name ∈ protocols ∧ name ∈ namedProtocols headers) ∧
    (min after.length (offered server.more (toSize (contentLength headers)) (lastLength headers)) : Int) =
      bodyLength headers) ∧
  ∀ status headers, Torn server status headers → ¬ Passes ack status headers

section
variable {closes lf : Bool} {input x rest after sent status unread : Bytes} {ls protocols headers : List Bytes}
  {ack : Bytes} {r : Nat} {server : Server} {stack : Stack}

/-! Heads and what is read of them. -/

theorem Scans.fits (h : Scans closes lf input ls after) : ∀ line ∈ ls, line.length + 2 ≤ LINESIZE := by
  induction h with
  | last h => nofun
  | torn h => nofun
  | line _ _ hlen _ ih => exact List.forall_mem_cons.mpr ⟨hlen, ih⟩

private theorem scans_of_head (h : Head input ls after) (hfits : ∀ line ∈ ls, line.length + 2 ≤ LINESIZE) :
    Scans closes lf input ls after := by
  induction h generalizing lf with
  | last h => exact .last h
  | line h hx _ ih =>
    obtain ⟨hlen, hfits⟩ := List.forall_mem_cons.mp hfits
    exact .line h hx hlen (ih hfits)

private theorem lastSecond_cons : lastSecond lf (x :: ls) = lastSecond (secondLf x) ls := by
  unfold lastSecond
  cases ls with
  | nil => rfl
  | cons y ls => rw [List.getLast?_cons_cons, List.getLast?_cons, Option.map_some, Option.getD_some, Option.getD_some]

private theorem scans_of_torn (h : Head (input ++ [LF]) ls []) (hlf : lastSecond lf ls = true)
    (hfits : ∀ line ∈ ls, line.length + 2 ≤ LINESIZE) : Scans true lf input ls [] := by
  induction ls generalizing lf input with
  | nil =>
    cases h with
    | last h =>
      have hinput : input ++ [LF] = [CR] ++ [LF] := splitLine_eq h
      rw [List.append_cancel_right hinput, show lf = true from hlf]
      exact .torn rfl
  | cons x ls ih =>
    cases h with
    | @line _ _ y _ _ h hx ht =>
      obtain ⟨hlen, hfits⟩ := List.forall_mem_cons.mp hfits
      have hlong := congrArg List.length (splitLine_eq h)
      have htwo := ht.two_le
      rw [List.length_append, List.length_append, List.length_singleton, List.length_cons, List.length_cons] at hlong
      have hsplit := splitLine_of_append h (by omega)
      have happend := splitLine_append hsplit [LF]
      cases h.symm.trans happend
      rw [lastSecond_cons] at hlf
      exact .line hsplit hx hlen (ih ht hlf hfits)

private theorem Scans.head_or_torn (h : Scans closes lf input ls after) : Head input ls after ∨
    (closes = true ∧ after = [] ∧ Head (input ++ [LF]) ls [] ∧ lastSecond lf ls = true) := by
  induction h with
  | last h => exact .inl (.last h)
  | torn h => exact .inr ⟨h, rfl, .last rfl, rfl⟩
  | line h hx _ _ ih =>
    rcases ih with hhead | ⟨hcloses, hafter, hhead, hlf⟩
    · exact .inl (.line h hx hhead)
    · refine .inr ⟨hcloses, hafter, .line (splitLine_append h [LF]) hx hhead, ?_⟩
      rwa [lastSecond_cons]

/-! The texts of the headers and their first words. -/

private theorem oneWord_of_texts {key expected : Bytes} (hkey : Name key)
    (htexts : ∀ s ∈ textsOf key headers, s = expected)
    (hvalues : agree key expected headers) : OneWord key headers := by
  intro line hline hheaded
  have hfilter : line ∈ headers.filter (Headed key) := List.mem_filter.mpr ⟨hline, decide_eq_true hheaded⟩
  have hfilter' : line ∈ headers.filter fun line => named key (cString line) :=
    List.mem_filter.mpr ⟨hline, (named_iff hkey).mpr hheaded⟩
  rw [htexts _ (List.mem_map_of_mem hfilter), hvalues _ (List.mem_map_of_mem hfilter')]

private theorem texts_of_oneWord {key expected : Bytes} (hkey : Name key) (hone : OneWord key headers)
    (hvalues : agree key expected headers) : ∀ s ∈ textsOf key headers, s = expected := by
  intro s hs
  obtain ⟨line, hfilter, rfl⟩ := List.mem_map.mp hs
  obtain ⟨hline, hheaded⟩ := List.mem_filter.mp hfilter
  have hheaded := of_decide_eq_true hheaded
  rw [hone line hline hheaded]
  refine hvalues _ (List.mem_map_of_mem (f := fun line => value (cString line)) ?_)
  exact List.mem_filter.mpr ⟨hline, (named_iff hkey).mpr hheaded⟩

/-! The answer. -/

private theorem statusOk_nonempty (h : statusOk (cString x) = true) : x ≠ [] := by
  rintro rfl
  cases h

theorem finish_iff {more : Nat → Nat} {s : Reading} : finish more s = .index r unread ↔
    s.vars.haserr = false ∧ s.vars.result = some r ∧ skipBody more s.vars.clen s.vars.len s.input = unread := by
  unfold finish
  dsimp only
  split
  next hhaserr hresult =>
    rw [hhaserr, hresult, Answer.index.injEq, Option.some.injEq]
    exact ⟨fun h => ⟨rfl, h⟩, And.right⟩
  next hnot =>
    refine ⟨nofun, fun h => ?_⟩
    exact absurd h.2.1 (hnot _ h.1)

private theorem scanned_contentLength :
    (scanned protocols ack ⟨false, none, 3, 0⟩ headers).clen = toSize (contentLength headers) := by
  rw [scanned_clen, contentLength]
  cases (valuesOf contentLengthName headers).getLast? <;> rfl

/-- What the headers must be for an index, and the bytes that are left. -/
theorem finish_scanned {more : Nat → Nat} {line : Bytes} :
    finish more ⟨after, line, scanned protocols ack ⟨false, none, 3, 0⟩ headers⟩ = .index r unread ↔
      (agree secWebSocketAccept ack headers ∧ agree upgrade (ascii "websocket") headers) ∧
      (∃ name, (valuesOf secWebSocketProtocol headers).getLast? = some name ∧ protocols.idxOf name = r) ∧
      after.drop (offered more (toSize (contentLength headers)) (lastLength headers)) = unread := by
  rw [finish_iff, scanned_haserr, scanned_result, scanned_contentLength, scanned_len, skipBody_eq, Option.or_none,
    Option.map_eq_some_iff]
  exact and_congr_left' (and_iff_right rfl)

private theorem receiveResponse_iff : receiveResponse server stack protocols ack = some (.index r unread) ↔
    ∃ status headers after, Scans server.closes false server.sent (status :: headers) after ∧
      statusOk (cString status) = true ∧
      (agree secWebSocketAccept ack headers ∧ agree upgrade (ascii "websocket") headers) ∧
      (∃ name, (valuesOf secWebSocketProtocol headers).getLast? = some name ∧ protocols.idxOf name = r) ∧
      after.drop (offered server.more (toSize (contentLength headers)) (lastLength headers)) = unread := by
  unfold receiveResponse
  constructor
  · intro h
    split at h
    · cases h
    next n input line hreceived =>
      obtain ⟨status, rfl, rfl, hlen, hstream⟩ := receiveLine_some hreceived
      rw [cString_written] at h
      split at h
      next hstatus =>
        have hnonempty := statusOk_nonempty hstatus
        obtain ⟨result, hiterate, hfinish⟩ := Option.map_eq_some_iff.mp h
        cases result with
        | error e => cases hfinish
        | ok t =>
          have hfresh : Fresh (written status stack.1) := by
            rcases hstream with hsplit | ⟨-, -, -, z, hsplit⟩
            · exact fresh_written hsplit hnonempty hlen stack.2
            · exact fresh_written hsplit hnonempty hlen stack.2
          obtain ⟨headers, hscans, hvars⟩ := scans_of_ends (ends_of_iterate hiterate) rfl hfresh
          have hsplit : splitLine server.sent = some (status, input) :=
            hstream.resolve_right fun hnil => hscans.nonempty hnil.1
          rw [written_second _ hnonempty] at hscans
          have hindex : finish server.more ⟨t.input, t.line, t.vars⟩ = .index r unread := hfinish
          rw [hvars] at hindex
          exact ⟨status, headers, t.input, .line hsplit hnonempty (stack.2 ▸ hlen) hscans, hstatus,
            finish_scanned.mp hindex⟩
      next => cases h
  · rintro ⟨status, headers, after, hscans, hstatus, hindex⟩
    cases hscans with
    | @line _ _ _ rest _ _ hsplit hnonempty hlen hscans =>
      have hroom : status.length + 2 ≤ stack.1.length := stack.2.symm ▸ hlen
      have hfresh := fresh_written hsplit hnonempty hroom stack.2
      obtain ⟨t, hends, rfl, hvars⟩ := ends_of_scans (s := ⟨rest, written status stack.1, ⟨false, none, 3, 0⟩⟩)
        protocols ack hscans hfresh (written_second _ hnonempty).symm rfl
      rw [receiveLine_line hsplit hroom]
      dsimp only
      rw [cString_written, if_pos hstatus, (iterate_iff headerStep_less (size_lt hfresh.1)).mpr hends, Option.map_some]
      have hfinish : finish server.more ⟨t.input, t.line, t.vars⟩ = .index r unread := by
        rw [hvars]
        exact finish_scanned.mpr hindex
      exact congrArg some hfinish

/-- A response that passes has an index. -/
theorem receiveResponse_passes (stack : Stack) (protocols : List Bytes) (hpasses : Passes ack status headers)
    (hscans : Scans server.closes false server.sent (status :: headers) after) :
    ∃ name, (valuesOf secWebSocketProtocol headers).getLast? = some name ∧
      receiveResponse server stack protocols ack = some (.index (protocols.idxOf name)
        (after.drop (offered server.more (toSize (contentLength headers)) (lastLength headers)))) := by
  refine ⟨_, List.getLast?_eq_some_getLast hpasses.protocol, receiveResponse_iff.mpr ?_⟩
  exact ⟨status, headers, after, hscans, hpasses.status, ⟨hpasses.accept, hpasses.upgrade⟩,
    ⟨_, List.getLast?_eq_some_getLast hpasses.protocol, rfl⟩, rfl⟩

theorem scans_of_passes (hpasses : Passes ack status headers) (h : Head server.sent (status :: headers) after) :
    Scans server.closes false server.sent (status :: headers) after := scans_of_head h hpasses.fits

end

/-- What the client takes for an agreement is one, exactly when what the checks leave open is as it should be. -/
theorem receiveResponse_granted_iff (server : Server) (stack : Stack) (protocols : List Bytes) (ack : Bytes) :
    (∀ r unread, receiveResponse server stack protocols ack = some (.index r unread) →
      Granted server protocols ack r unread) ↔ Safe server protocols ack := by
  constructor
  · intro hgranted
    constructor
    · intro status headers after hhead hpasses
      obtain ⟨name, hname, hindex⟩ := receiveResponse_passes stack protocols hpasses
        (scans_of_passes hpasses hhead)
      obtain ⟨status', headers', after', body, hhead', -, ⟨hpresent, haccept⟩, hupgrade, hprotocol, hafter, hlength⟩ :=
        hgranted _ _ hindex
      obtain ⟨heq, rfl⟩ := hhead.unique hhead'
      cases heq
      refine ⟨hpresent, oneWord_of_texts (by decide) haccept hpasses.accept,
        oneWord_of_texts (by decide) hupgrade hpasses.upgrade, ?_, ?_⟩
      · intro name' hname'
        cases hname.symm.trans hname'
        obtain ⟨found, hmem, hfound⟩ := hprotocol
        have hlt := (List.getElem?_eq_some_iff.mp hfound).1
        rw [List.getElem?_eq_getElem hlt, List.getElem_idxOf] at hfound
        exact ⟨List.idxOf_lt_length_iff.mp hlt, Option.some.inj hfound ▸ hmem⟩
      · have hsum := congrArg List.length hafter
        rw [List.length_append, List.length_drop] at hsum
        refine Eq.trans ?_ hlength
        omega
    · intro status headers htorn hpasses
      obtain ⟨hcloses, hhead, hlf⟩ := htorn
      have hscans : Scans server.closes false server.sent (status :: headers) [] := by
        rw [hcloses]
        exact scans_of_torn hhead hlf hpasses.fits
      obtain ⟨name, hname, hindex⟩ := receiveResponse_passes stack protocols hpasses hscans
      obtain ⟨status', headers', after', body, hhead', -⟩ := hgranted _ _ hindex
      have hlong := (hhead.unique (hhead'.append [LF])).2
      cases after' <;> cases hlong
  · rintro ⟨hsafe, htorn⟩ r unread hindex
    obtain ⟨status, headers, after, hscans, hstatus, ⟨haccept, hupgrade⟩, ⟨name, hname, rfl⟩, rfl⟩ :=
      receiveResponse_iff.mp hindex
    have hpasses : Passes ack status headers :=
      ⟨hscans.fits, hstatus, haccept, hupgrade, List.ne_nil_of_mem (List.mem_of_getLast? hname)⟩
    rcases hscans.head_or_torn with hhead | ⟨hcloses, -, hhead, hlf⟩
    · obtain ⟨hpresent, haccept', hupgrade', hproposed, hlength⟩ := hsafe status headers after hhead hpasses
      obtain ⟨hproposed, hnamed⟩ := hproposed name hname
      refine ⟨status, headers, after,
        after.take (offered server.more (toSize (contentLength headers)) (lastLength headers)), hhead, hstatus,
        ⟨hpresent, texts_of_oneWord (by decide) haccept' haccept⟩, texts_of_oneWord (by decide) hupgrade' hupgrade,
        ⟨name, hnamed, ?_⟩, ?_, ?_⟩
      · rw [List.getElem?_eq_getElem (List.idxOf_lt_length_iff.mpr hproposed), List.getElem_idxOf]
      · exact (List.take_append_drop _ _).symm
      · rw [List.length_take]
        refine Eq.trans ?_ hlength
        omega
    · exact absurd hpasses (htorn status headers ⟨hcloses, hhead, hlf⟩)

/-- A response without the header of the key. -/
def keyless : Server where
  sent := ascii "HTTP/1.1 101 Switching Protocols" ++ CR :: LF :: (ascii "Sec-WebSocket-Protocol: x-afb-ws-json1" ++
    [CR, LF, CR, LF])
  closes := false
  more := fun _ => 0

theorem accepted_without_key : ¬ ∀ (server : Server) (stack : Stack) (protocols : List Bytes) (ack : Bytes) (r : Nat)
    (unread : Bytes), receiveResponse server stack protocols ack = some (.index r unread) →
      Granted server protocols ack r unread := by
  intro hgranted
  let headers : List Bytes := [ascii "Sec-WebSocket-Protocol: x-afb-ws-json1"]
  have hhead : Head keyless.sent (ascii "HTTP/1.1 101 Switching Protocols" :: headers) [] :=
    .line (y := ascii "Sec-WebSocket-Protocol: x-afb-ws-json1" ++ [CR, LF, CR, LF]) (by decide) (by decide)
      (.line (y := [CR, LF]) (by decide) (by decide) (.last (by decide)))
  have hnone : textsOf secWebSocketAccept headers = [] := by decide
  have hpasses : Passes (ascii "G5J7ncQnmS/MubIYcqKWM+E6k8I=") (ascii "HTTP/1.1 101 Switching Protocols") headers :=
    ⟨by decide, by decide, by decide, by decide, by decide⟩
  let zeros : Stack := ⟨List.replicate LINESIZE 0, List.length_replicate⟩
  obtain ⟨name, -, hindex⟩ :=
    receiveResponse_passes zeros [ascii "x-afb-ws-json1"] hpasses (scans_of_passes hpasses hhead)
  obtain ⟨status', headers', after', body, hhead', -, ⟨haccept, -⟩, -⟩ := hgranted _ _ _ _ _ _ hindex
  obtain ⟨heq, -⟩ := hhead.unique hhead'
  cases heq
  exact haccept hnone

end AfbBinder.WsClient
