import Mathlib.Data.List.Find
import Mathlib.Data.List.TakeWhile
import AfbBinder.Lib.Lists
import AfbBinder.Hsrv.Upgrade
import AfbBinder.WsClient.Acceptance
import AfbBinder.WsClient.Requests

/-! Both ends of the upgrade: the request of the client, the answer of the server and what the
client makes of it. Between them is only the text of the two messages. -/
namespace AfbBinder.WsClient
open Lib.Cstrings Lib.CrLf Lib.Lists Lib.Words Hsrv.Upgrade
open Lib.Json (ascii decimal)

def headLine (h : Bytes × Bytes) : Bytes := h.1 ++ colon :: blank :: h.2

def requestLines (con : Connection) : List Bytes :=
  (con.method ++ blank :: (con.url ++ blank :: con.version)) :: con.headers.map headLine

/-- The text reads as this request: the library of the server gives it so. -/
structure Reads (con : Connection) (text : Bytes) : Prop where
  text : text = headText (requestLines con)
  method : blank ∉ con.method
  url : blank ∉ con.url
  names : ∀ h ∈ con.headers, colon ∉ h.1
  lines : ∀ line ∈ requestLines con, CR ∉ line

def statusLine (response : Response) (reason : Bytes) : Bytes :=
  ascii "HTTP/1.1 " ++ (decimal response.code ++ blank :: reason)

/-- The headers that the client looks at. -/
def clientKeys : List Bytes := [secWebSocketAccept, secWebSocketProtocol, upgrade, contentLengthName]

/-- The bytes carry the response, in lines that are not too long for the client, with other headers,
in any order; those of an upgrade are not of the ones that the client looks at. -/
structure Carries (response : Response) (reason sent after : Bytes) (lines others : List Bytes) : Prop where
  head : Head sent (statusLine response reason :: lines) after
  fits : ∀ line ∈ statusLine response reason :: lines, line.length + 2 ≤ LINESIZE
  headers : lines.Perm (response.headers.map headLine ++ others)
  others : response.proto.isSome → ∀ line ∈ others, ∀ key ∈ clientKeys, ¬Headed key line

/-- The first protocol of the client that the server has, as the server spells it. -/
def agreed (protodefs protocols : List Bytes) : Option Bytes :=
  protocols.findSome? fun word => protodefs.find? fun name => strcasecmp name word = .eq

/-! The server reads what the client asks. -/

/-- The request of the client. -/
def requested (rand : Nat) (protocols : List Bytes) (path host : Bytes) : Connection where
  method := ascii "GET"
  url := path
  version := ascii "HTTP/1.1"
  headers := [(ascii "Host", host), (ascii "Upgrade", ascii "websocket"), (ascii "Connection", ascii "Upgrade"),
    (ascii "Sec-WebSocket-Version", ascii "13"), (ascii "Sec-WebSocket-Key", (getkeypair rand).1),
    (ascii "Sec-WebSocket-Protocol", strjoin protocols (ascii ", ")), (ascii "Content-Length", ascii "0")]

section
variable {rand : Nat} {protodefs protocols : List Bytes} {path host : Bytes} {con : Connection}

private theorem sendRequest_lines (rand : Nat) (protocols : List Bytes) (path host : Bytes) :
    sendRequest rand protocols path host = headText (requestLines (requested rand protocols path host)) := rfl

private theorem headLine_inj {h h' : Bytes × Bytes} (hc : colon ∉ h.1) (hc' : colon ∉ h'.1)
    (heq : headLine h = headLine h') : h = h' := by
  obtain ⟨hname, hvalue⟩ := split_first hc hc' heq
  exact Prod.ext hname (List.cons.inj hvalue).2

private theorem headLines_inj {l l' : List (Bytes × Bytes)} (hl : ∀ h ∈ l, colon ∉ h.1)
    (hl' : ∀ h ∈ l', colon ∉ h.1)
    (heq : l.map headLine = l'.map headLine) : l = l' := by
  induction l generalizing l' with
  | nil => exact (List.map_eq_nil_iff.mp heq.symm).symm
  | cons h l ih =>
    cases l' with
    | nil => exact absurd heq (List.cons_ne_nil _ _)
    | cons h' l' =>
      rw [List.forall_mem_cons] at hl hl'
      obtain ⟨hfirst, hrest⟩ := List.cons.inj heq
      rw [headLine_inj hl.1 hl'.1 hfirst, ih hl.2 hl'.2 hrest]

private theorem requestLines_ne_nil (con : Connection) : ∀ line ∈ requestLines con, line ≠ [] := by
  rw [requestLines, List.forall_mem_cons, List.forall_mem_map]
  exact ⟨by simp, fun h _ => by simp [headLine]⟩

/-- A text reads as one request. -/
theorem Reads.unique {con con' : Connection} {text : Bytes} (h : Reads con text) (h' : Reads con' text) : con = con' := by
  have hhead := head_headText (fun line hl => ⟨requestLines_ne_nil con line hl, h.lines line hl⟩) []
  have hhead' := head_headText (fun line hl => ⟨requestLines_ne_nil con' line hl, h'.lines line hl⟩) []
  rw [List.append_nil, ← h.text] at hhead
  rw [List.append_nil, ← h'.text] at hhead'
  obtain ⟨hfirst, hheaders⟩ := List.cons.inj (hhead.unique hhead').1
  obtain ⟨hmethod, hrest⟩ := split_first h.method h'.method hfirst
  obtain ⟨hurl, hversion⟩ := split_first h.url h'.url hrest
  have hlist := headLines_inj h.names h'.names hheaders
  cases con
  cases con'
  simp_all

private theorem mem_strjoin {strings : List Bytes} {separ : Bytes} {b : UInt8}
    (hb : b ∈ strjoin strings separ) :
    b ∈ separ ∨ ∃ s ∈ strings, b ∈ s := by
  have hfold (l : List Bytes) (iter : Bytes) (hb : b ∈ l.foldl (fun iter s => iter ++ separ ++ s) iter) :
      b ∈ iter ∨ b ∈ separ ∨ ∃ s ∈ l, b ∈ s := by
    induction l generalizing iter with
    | nil => exact .inl hb
    | cons s l ih =>
      rcases ih _ hb with hb | hb | ⟨t, ht, hb⟩
      · simp only [List.mem_append] at hb
        rcases hb with (hb | hb) | hb
        · exact .inl hb
        · exact .inr (.inl hb)
        · exact .inr (.inr ⟨s, List.mem_cons_self, hb⟩)
      · exact .inr (.inl hb)
      · exact .inr (.inr ⟨t, List.mem_cons_of_mem s ht, hb⟩)
  cases strings with
  | nil => cases hb
  | cons s strings =>
    rcases hfold strings s hb with hb | hb | ⟨t, ht, hb⟩
    · exact .inr ⟨s, List.mem_cons_self, hb⟩
    · exact .inl hb
    · exact .inr ⟨t, List.mem_cons_of_mem s ht, hb⟩

/-- The words of the joined protocols are the protocols. -/
theorem words_strjoin (h : ∀ p ∈ protocols, Token p) :
    words vseparator (strjoin protocols (ascii ", ")) = protocols := by
  have hfold (l : List Bytes) (iter : Bytes) :
      l.foldl (fun iter s => iter ++ ascii ", " ++ s) iter = iter ++ l.flatMap (ascii ", " ++ ·) := by
    induction l generalizing iter with
    | nil => exact (List.append_nil iter).symm
    | cons s l ih => rw [List.foldl_cons, ih, List.flatMap_cons, List.append_assoc, List.append_assoc, List.append_assoc]
  have hnext (l : List Bytes) : ∀ b ∈ (l.flatMap (ascii ", " ++ ·)).head?, vseparator b = true := by
    intro b hb
    cases l with
    | nil => cases hb
    | cons s l =>
      cases hb
      rfl
  have hwords (l : List Bytes) (hl : ∀ p ∈ l, Token p) :
      words vseparator (l.flatMap (ascii ", " ++ ·)) = l := by
    induction l with
    | nil => rfl
    | cons s l ih =>
      rw [List.forall_mem_cons] at hl
      have hskip : words vseparator ((s :: l).flatMap (ascii ", " ++ ·)) =
          words vseparator (s ++ l.flatMap (ascii ", " ++ ·)) :=
        (words_sep _ rfl).trans (words_sep _ rfl)
      rw [hskip, words_token hl.1 _ (hnext l), ih hl.2]
  cases protocols with
  | nil => rfl
  | cons s strings =>
    rw [List.forall_mem_cons] at h
    rw [strjoin, hfold, words_token h.1 _ (hnext strings), hwords strings h.2]

private theorem keys_visible : ∀ i < 16, CR ∉ compkeys.getD (2 * i) [] := by decide +kernel

private theorem reads_requested (hprotocols : ∀ p ∈ protocols, Token p) (hpath : ∀ b ∈ path, 33 ≤ b)
    (hhost : CR ∉ host) : Reads (requested rand protocols path host) (sendRequest rand protocols path host) := by
  have hjoin : CR ∉ strjoin protocols (ascii ", ") := by
    intro hb
    rcases mem_strjoin hb with hb | ⟨p, hp, hb⟩
    · exact absurd hb (by decide)
    · exact absurd ((hprotocols p hp).2 CR hb).1 (by decide)
  have hkey : CR ∉ (getkeypair rand).1 := by
    obtain ⟨i, hi, hpair⟩ := getkeypair_eq rand
    rw [hpair]
    exact keys_visible i hi
  have hcr : CR ∉ path := fun hb => absurd (hpath CR hb) (by decide)
  have hget : blank ∉ ascii "GET" := by decide
  have hline (name value : Bytes) (hname : CR ∉ name) (hvalue : CR ∉ value) : CR ∉ headLine (name, value) := by
    rw [headLine, List.mem_append, List.mem_cons, List.mem_cons]
    rintro (h | h | h | h)
    · exact hname h
    · exact absurd h (by decide)
    · exact absurd h (by decide)
    · exact hvalue h
  refine ⟨sendRequest_lines rand protocols path host, hget, fun hb => absurd (hpath blank hb) (by decide), ?_, ?_⟩
  · simp only [requested, List.forall_mem_cons]
    decide
  · rw [requestLines, requested, List.forall_mem_cons, List.forall_mem_map]
    constructor
    · simp only [List.mem_append, List.mem_cons, not_or]
      exact ⟨by decide, by decide, hcr, by decide, by decide⟩
    · simp only [List.forall_mem_cons]
      exact ⟨hline _ _ (by decide) hhost, by decide, by decide, by decide, hline _ _ (by decide) hkey,
        hline _ _ (by decide) hjoin, by decide, fun _ h => by cases h⟩

/-! The server answers. -/

private theorem findSome?_congr {α β : Type} {f g : α → Option β} {l : List α} (h : ∀ a ∈ l, f a = g a) :
    l.findSome? f = l.findSome? g := by
  induction l with
  | nil => rfl
  | cons a l ih =>
    rw [List.forall_mem_cons] at h
    rw [List.findSome?_cons, List.findSome?_cons, h.1, ih h.2]

private theorem searchProto_joined (hdefs : ∀ name ∈ protodefs, Token name)
    (hprotocols : ∀ p ∈ protocols, Token p) :
    searchProto protodefs (some (strjoin protocols (ascii ", "))) = agreed protodefs protocols := by
  rw [searchProto, eachWord_words _ _ _ (Nat.lt_succ_self _), words_strjoin hprotocols, agreed]
  refine findSome?_congr fun word hword => ?_
  exact List.find?_congr fun name hname => decide_eq_decide.mpr (isproto_iff (hdefs name hname).not_nul)

private theorem key_token : ∀ i < 16, Token (compkeys.getD (2 * i + 1) []) := by decide +kernel

/-- The answer of the server to the request of the client. -/
private def answer (outside : Outside) (protodefs : List Bytes) (rand : Nat) (protocols : List Bytes) : Response :=
  match agreed protodefs protocols with
  | none => ⟨412, [], none⟩
  | some name =>
    if outside.memory then
      ⟨101, [(secWebSocketAccept, (getkeypair rand).2), (secWebSocketProtocol, name), (upgrade, ascii "websocket")],
        some name⟩
    else ⟨500, [], none⟩

private theorem check_requested {outside : Outside}
    (hkey : makeAcceptValue outside.sha1 (getkeypair rand).1 = (getkeypair rand).2)
    (hdefs : ∀ name ∈ protodefs, Token name) (hprotocols : ∀ p ∈ protocols, Token p) :
    afbWebsockCheckUpgrade outside protodefs (requested rand protocols path host) =
      some (answer outside protodefs rand protocols) := by
  have hget : getMethod (requested rand protocols path host).method = .get := by
    have hmethod : getMethod (ascii "GET") = .get := by decide
    exact hmethod
  have hversion : strcasecmp (requested rand protocols path host).version (ascii "HTTP/1.1") = .eq := strcasecmp_self
  have hupgrade : (requested rand protocols path host).lookup (ascii "Upgrade") = some (ascii "websocket") := rfl
  have hconnection : (requested rand protocols path host).lookup (ascii "Connection") = some (ascii "Upgrade") := rfl
  have hkeyed : (requested rand protocols path host).lookup secWebsocketKey = some (getkeypair rand).1 := rfl
  have hnumber : (requested rand protocols path host).lookup secWebsocketVersion = some (ascii "13") := rfl
  have hproto : (requested rand protocols path host).lookup secWebsocketProtocol =
    some (strjoin protocols (ascii ", ")) := rfl
  have hhas : headerhas (ascii "Upgrade") (ascii "Upgrade") = true := by decide
  have hthirteen : atoi (ascii "13") = 13 := by decide
  rw [afbWebsockCheckUpgrade, if_neg (by rw [hget, hversion]; decide), checkWebsocketUpgrade, hupgrade, hconnection,
    hkeyed, hnumber, hproto, searchProto_joined hdefs hprotocols, answer]
  simp only [Option.bind_eq_bind, Option.bind_some, hhas, hthirteen, hkey]
  cases agreed protodefs protocols <;> cases outside.memory <;> rfl

/-! The client reads the answer. -/

private theorem headLine_facts {key v : Bytes} (hkey : Name key) (hv : Token v) :
    cString (headLine (key, v)) = headLine (key, v) ∧ value (headLine (key, v)) = v := by
  obtain ⟨hstring, hlength, -⟩ := name_facts hkey (blank :: v)
  have hdrop : (headLine (key, v)).drop (key.length + 1) = blank :: v := by
    have hsplit : headLine (key, v) = (key ++ [colon]) ++ blank :: v := by simp [headLine]
    rw [hsplit, List.drop_left' (by simp)]
  have hblank : ∀ b ∈ v, ¬(b = blank ∨ b = comma) := by
    rintro b hb (rfl | rfl)
    · exact absurd (hv.2 blank hb).1 (by decide)
    · exact (hv.2 comma hb).2 rfl
  have hstart : valueStart (headLine (key, v)) = key.length + 2 := by
    obtain ⟨b, v, rfl⟩ := List.exists_cons_of_ne_nil hv.1
    rw [valueStart, headLine, hlength, ← headLine, hdrop, List.takeWhile_cons_of_pos (by decide),
      List.takeWhile_cons_of_neg (by simpa using hblank b List.mem_cons_self)]
    rfl
  constructor
  · rw [headLine, hstring, cString, List.takeWhile_eq_self_iff.mpr]
    intro b hb
    refine decide_eq_true fun h => ?_
    rcases List.mem_cons.mp hb with rfl | hb
    · cases h
    · exact hv.not_nul (h ▸ hb)
  · have hvalue : (headLine (key, v)).drop (key.length + 2) = v := by
      have hnext := congrArg (List.drop 1) hdrop
      rwa [List.drop_drop] at hnext
    rw [value, hstart, hvalue]
    exact List.takeWhile_eq_self_iff.mpr fun b hb => by simpa using hblank b hb

private theorem named_headLine {key key' v : Bytes} (hkey : Name key) (hkey' : Name key') :
    named key' (cString (headLine (key, v))) = decide (strcasecmp key key' = .eq) := by
  have htake : (headLine (key, v)).takeWhile (· ≠ colon) = key :=
    takeWhile_word (fun b hb => by simpa using (hkey.2 b hb).2.1) (by decide)
  rw [Bool.eq_iff_iff, named_iff hkey', Headed, htake, decide_eq_true_iff, strcasecmp_eq]
  exact and_iff_right (by simp [headLine])

private theorem clientKeys_names : ∀ key ∈ clientKeys, Name key := by decide

/-- The values that the client sees are those of the headers of the response. -/
theorem valuesOf_carried {response : Response} {lines others : List Bytes} {key : Bytes}
    (hlines : lines.Perm (response.headers.map headLine ++ others))
    (hothers : ∀ line ∈ others, ∀ key ∈ clientKeys, ¬Headed key line) (hkey : key ∈ clientKeys)
    (hheaders : ∀ h ∈ response.headers, Name h.1 ∧ Token h.2) :
    (valuesOf key lines).Perm ((response.headers.filter fun h => strcasecmp h.1 key = .eq).map Prod.snd) := by
  have hname := clientKeys_names key hkey
  have hperm := (hlines.filter fun line => named key (cString line)).map fun line => value (cString line)
  refine hperm.trans (List.Perm.of_eq ?_)
  have hnone : others.filter (fun line => named key (cString line)) = [] :=
    List.filter_eq_nil_iff.mpr fun line hl h => hothers line hl key hkey ((named_iff hname).mp h)
  rw [List.filter_append, hnone, List.append_nil]
  generalize response.headers = headers at hheaders
  induction headers with
  | nil => rfl
  | cons h headers ih =>
    rw [List.forall_mem_cons] at hheaders
    obtain ⟨hstring, hvalue⟩ := headLine_facts hheaders.1.1 hheaders.1.2
    have hnamed := named_headLine (v := h.2) hheaders.1.1 hname
    rw [List.map_cons, List.filter_cons, List.filter_cons, hnamed]
    split
    · rw [List.map_cons, List.map_cons, ih hheaders.2, hstring, hvalue]
    · exact ih hheaders.2

private theorem perm_singleton {l : List Bytes} {a : Bytes} (h : l.Perm [a]) : l =
    [a] := List.perm_singleton.mp h

private theorem receive_refused {server : Server} {status after : Bytes} {lines : List Bytes} (stack : Stack)
    (protocols : List Bytes) (ack : Bytes) (hhead : Head server.sent (status :: lines) after)
    (hfits : status.length + 2 ≤ LINESIZE) (hstatus : statusOk (cString status) = false) :
    receiveResponse server stack protocols ack = some .error := by
  cases hhead with
  | line hsplit hnonempty hrest =>
    have hroom : status.length + 2 ≤ stack.1.length := stack.2.symm ▸ hfits
    rw [receiveResponse, receiveLine_line hsplit hroom]
    dsimp only
    rw [cString_written, hstatus]
    rfl

end

/-- When the client and the server have only the texts of the two messages between them, and SHA1
gives the answer that is listed with the key of the client, the server takes the first protocol of
the client that it has, whatever the case of its letters. The client gets what follows the head and the
place in its list of the name that the server has, which is the end of the list if only the case is the
same. Without such a protocol, or without memory, the server refuses and the client gets an error. -/
theorem upgrade_agreed (outside : Outside) (protodefs : List Bytes) (hdefs : ∀ name ∈ protodefs, Token name) (rand : Nat)
    (hkey : makeAcceptValue outside.sha1 (getkeypair rand).1 = (getkeypair rand).2)
    (protocols : List Bytes) (hprotocols : ∀ p ∈ protocols, Token p) (path host : Bytes) (hpath : ∀ b ∈ path, 33 ≤ b)
    (hhost : CR ∉ host) (con : Connection) (hcon : Reads con (sendRequest rand protocols path host))
    (network : Bytes → Server) (stack : Stack) :
    ∃ response, afbWebsockCheckUpgrade outside protodefs con = some response ∧
      response.proto = (if outside.memory then agreed protodefs protocols else none) ∧
      ∀ reason after lines others,
        Carries response reason (network (sendRequest rand protocols path host)).sent after lines others →
        negociate rand network stack protocols path host =
          some (match response.proto with
            | some name => .index (protocols.idxOf name) after
            | none => .error) := by
  rw [hcon.unique (reads_requested hprotocols hpath hhost)]
  refine ⟨_, check_requested hkey hdefs hprotocols, ?_, fun reason after lines others hcarries => ?_⟩
  · rw [answer]
    cases agreed protodefs protocols <;> cases outside.memory <;> rfl
  · have hrefused (response : Response) (hresponse : response = ⟨412, [], none⟩ ∨ response = ⟨500, [], none⟩)
        (hcarries : Carries response reason (network (sendRequest rand protocols path host)).sent after lines others) :
        negociate rand network stack protocols path host = some .error := by
      refine receive_refused stack protocols _ hcarries.head (hcarries.fits _ List.mem_cons_self) ?_
      rcases hresponse with rfl | rfl <;> rfl
    rw [answer] at hcarries ⊢
    cases hagreed : agreed protodefs protocols with
    | none =>
      rw [hagreed] at hcarries
      exact hrefused _ (.inl rfl) hcarries
    | some name =>
      rw [hagreed] at hcarries
      cases hmemory : outside.memory with
      | false =>
        rw [hmemory] at hcarries
        exact hrefused _ (.inr rfl) hcarries
      | true =>
        rw [hmemory] at hcarries
        dsimp only at hcarries ⊢
        rw [if_pos rfl] at hcarries ⊢
        have hname : Token name := by
          obtain ⟨word, -, hfind⟩ := List.exists_of_findSome?_eq_some hagreed
          exact hdefs name (List.mem_of_find?_eq_some hfind)
        have hack : Token (getkeypair rand).2 := by
          obtain ⟨i, hi, hpair⟩ := getkeypair_eq rand
          rw [hpair]
          exact key_token i hi
        have hvalues (key : Bytes) (hkey : key ∈ clientKeys) := valuesOf_carried hcarries.headers (hcarries.others rfl) hkey (by
          simp only [List.forall_mem_cons]
          exact ⟨⟨by decide +kernel, hack⟩, ⟨by decide +kernel, hname⟩, ⟨by decide +kernel, by decide +kernel⟩,
            fun _ h => by cases h⟩)
        have haccept : valuesOf secWebSocketAccept lines = [(getkeypair rand).2] :=
          perm_singleton (hvalues secWebSocketAccept (by decide))
        have hproto : valuesOf secWebSocketProtocol lines = [name] :=
          perm_singleton (hvalues secWebSocketProtocol (by decide))
        have hupgrade : valuesOf upgrade lines = [ascii "websocket"] := perm_singleton (hvalues upgrade (by decide))
        have hlength : valuesOf contentLengthName lines = [] :=
          List.perm_nil.mp (hvalues contentLengthName (by decide))
        have hpasses : Passes (getkeypair rand).2 (ascii "HTTP/1.1 " ++ (decimal 101 ++ blank :: reason)) lines := by
          refine ⟨hcarries.fits, rfl, ?_, ?_, by rw [hproto]; exact List.cons_ne_nil _ _⟩
          · rw [agree, haccept]
            exact fun s hs => List.mem_singleton.mp hs
          · rw [agree, hupgrade]
            exact fun s hs => List.mem_singleton.mp hs
        obtain ⟨name', hlast, hindex⟩ := receiveResponse_passes stack protocols hpasses
          (scans_of_passes hpasses hcarries.head)
        rw [hproto] at hlast
        cases hlast
        have hzero : contentLength lines = 0 := by
          rw [contentLength, hlength]
          rfl
        rw [negociate, hindex, hzero]
        rfl

/-- The server upgrades, with a header of its own, and sends the first bytes of a frame. -/
private def upgradedLines : List Bytes :=
  [ascii "Connection: Upgrade", ascii "Sec-WebSocket-Accept: lyYxfDP5YunhkBF+nAWb/w6K4yg=",
    ascii "Sec-WebSocket-Protocol: x-afb-ws-json1", ascii "Upgrade: websocket"]

private def upgradedServer : Server :=
  ⟨headText (ascii "HTTP/1.1 101 Switching Protocols" :: upgradedLines) ++ [0x81, 0], false, fun _ => 0⟩

/-- SHA1 is known on the key of the client with the constant of the protocol. -/
private def upgradedOutside : Outside where
  sha1 _ := [0x97, 0x26, 0x31, 0x7c, 0x33, 0xf9, 0x62, 0xe9, 0xe1, 0x90, 0x11, 0x7e, 0x9c, 0x05, 0x9b, 0xff, 0x0e, 0x8a,
    0xe3, 0x28]
  memory := true

private def upgradedResponse : Response :=
  ⟨101, [(secWebSocketAccept, ascii "lyYxfDP5YunhkBF+nAWb/w6K4yg="), (secWebSocketProtocol, ascii "x-afb-ws-json1"),
    (upgrade, ascii "websocket")], some (ascii "x-afb-ws-json1")⟩

private theorem upgraded_answer : answer upgradedOutside protodefs 3 protodefs = upgradedResponse := by
  decide +kernel

private theorem upgraded_carries : Carries upgradedResponse
    (ascii "Switching Protocols") upgradedServer.sent [0x81, 0]
    upgradedLines [ascii "Connection: Upgrade"] where
  head := head_headText (by decide) [0x81, 0]
  fits := by decide
  headers := (List.perm_append_singleton _ _).symm
  others _ := by decide

theorem upgrade_agreed_sample :
    negociate 3 (fun _ => upgradedServer) ⟨List.replicate LINESIZE 0, List.length_replicate⟩ protodefs (ascii "/api")
      (ascii "localhost") = some (.index 0 [0x81, 0]) := by
  have htokens : ∀ p ∈ protodefs, Token p := by decide +kernel
  have hkey : makeAcceptValue upgradedOutside.sha1 (getkeypair 3).1 = (getkeypair 3).2 := by decide +kernel
  obtain ⟨response, hresponse, -, hclient⟩ := upgrade_agreed upgradedOutside protodefs htokens 3 hkey
    protodefs htokens (ascii "/api") (ascii "localhost") (by decide +kernel) (by decide +kernel) _
    (reads_requested htokens (by decide +kernel) (by decide +kernel))
    (fun _ => upgradedServer) ⟨List.replicate LINESIZE 0, List.length_replicate⟩
  have hanswer := (check_requested hkey htokens htokens).symm.trans hresponse
  rw [upgraded_answer] at hanswer
  obtain rfl := Option.some.inj hanswer
  have hindex : protodefs.idxOf (ascii "x-afb-ws-json1") = 0 := by decide +kernel
  exact (hclient _ _ _ _ upgraded_carries).trans (congrArg (fun r => some (Answer.index r [0x81, 0])) hindex)

end AfbBinder.WsClient
