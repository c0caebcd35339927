import AfbBinder.Lib.Words
import AfbBinder.WsClient.Model

/-! The upgrade of a connection of the HTTP server to a websocket. -/
namespace AfbBinder.Hsrv.Upgrade
open Lib.Cstrings Lib.CrLf Lib.Words
open Lib.Json (ascii)
open WsClient (atol blank colon comma)

inductive Method where
  | none
  | get
  | post
  | head
  | connect
  | delete
  | options
  | patch
  | put
  | trace
  deriving DecidableEq, Repr

/-- The letter in upper case, when it is one. -/
def upper (b : Option UInt8) : UInt8 := b.getD 0 &&& 0xDF

def getMethod (method : Bytes) : Method :=
  let c := upper method.head?
  if c = 67 then .connect
  else if c = 68 then .delete
  else if c = 71 then .get
  else if c = 72 then .head
  else if c = 79 then .options
  else if c = 80 then
    let c := upper method[1]?
    if c = 65 then .patch
    else if c = 79 then .post
    else if c = 85 then .put
    else .none
  else if c = 84 then .trace
  else .none

/-- A request as the library of the server read it. -/
structure Connection where
  method : Bytes
  url : Bytes
  version : Bytes
  headers : List (Bytes × Bytes)

/-- MHD_lookup_connection_value: the names are compared without their case. -/
def Connection.lookup (con : Connection) (key : Bytes) : Option Bytes :=
  (con.headers.find? fun h => strcasecmp h.1 key = .eq).map Prod.snd

/-- What the server sends, and the protocol of the websocket when it is an upgrade. -/
structure Response where
  code : Nat
  headers : List (Bytes × Bytes)
  proto : Option Bytes
  deriving DecidableEq, Repr

def websocket : Bytes := ascii "websocket"
def secWebsocketKey : Bytes := ascii "Sec-WebSocket-Key"
def secWebsocketVersion : Bytes := ascii "Sec-WebSocket-Version"
def secWebsocketAccept : Bytes := ascii "Sec-WebSocket-Accept"
def secWebsocketProtocol : Bytes := ascii "Sec-WebSocket-Protocol"
def websocketGuid : Bytes := ascii "258EAFA5-E914-47DA-95CA-C5AB0DC85B11"

def tob64 : Bytes := ascii "ABCDEFGHIJKLMNOPQRSTUVWXYZabcdefghijklmnopqrstuvwxyz0123456789+/"

def enc64 (a b c : UInt8) : Bytes :=
  [a >>> 2, ((a &&& 0x03) <<< 4) ||| ((b &&& 0xf0) >>> 4), ((b &&& 0x0f) <<< 2) ||| ((c &&& 0xc0) >>> 6),
    c &&& 0x3f].map fun i => tob64.getD i.toNat 0

/-- What the server does not decide: the function SHA1 of its library, and whether malloc succeeds. -/
structure Outside where
  sha1 : Bytes → Bytes
  memory : Bool

/-- The hash and a zero, by three bytes; the last of the 28 characters is put after. -/
def makeAcceptValue (sha1 : Bytes → Bytes) (key : Bytes) : Bytes :=
  let md := sha1 (key ++ websocketGuid) ++ [0]
  ((List.range 7).flatMap fun i =>
    enc64 (md.getD (3 * i) 0) (md.getD (3 * i + 1) 0) (md.getD (3 * i + 2) 0)).set 27 61

/-- " \t," -/
def vseparator (c : UInt8) : Bool := c = 32 ∨ c = 9 ∨ c = 44

/-- The loop over the words of a header, up to one that gives a result. -/
def eachWord {α : Type} (f : Bytes → Option α) : Nat → Bytes → Option α
  | 0, _ => none
  | n + 1, header =>
    let header := header.dropWhile vseparator
    if header = [] then none
    else (f (header.takeWhile (!vseparator ·))).or (eachWord f n (header.dropWhile (!vseparator ·)))

def headerhas (header needle : Bytes) : Bool :=
  (eachWord (fun word => if needle.length = word.length ∧ strcasecmp needle word = .eq then some () else none)
    (header.length + 1) header).isSome

/-- The names of the protocols, without the entry that ends them. -/
def searchProto (protodefs : List Bytes) : Option Bytes → Option Bytes
  | none => protodefs.head?
  | some protocols =>
    eachWord (fun word => protodefs.find? fun name =>
      strcasecmp (name.take word.length) word = .eq ∧ name.getD word.length 0 = 0) (protocols.length + 1) protocols

/-- The conversion of a long to an int. -/
def toInt (n : Int) : Int := (n + 0x80000000) % 0x100000000 - 0x80000000

def atoi (s : Bytes) : Int := toInt (atol s)

/-- None when it is not for this function. -/
def checkWebsocketUpgrade (outside : Outside) (protodefs : List Bytes) (con : Connection) : Option Response := do
  let upgrade ← con.lookup (ascii "Upgrade")
  if strcasecmp upgrade websocket ≠ .eq then none
  let connection ← con.lookup (ascii "Connection")
  if !headerhas connection (ascii "Upgrade") then none
  let key ← con.lookup secWebsocketKey
  let version ← con.lookup secWebsocketVersion
  if atoi version ≠ 13 then return ⟨426, [(secWebsocketVersion, ascii "13")], none⟩
  match searchProto protodefs (con.lookup secWebsocketProtocol) with
  | none => return ⟨412, [], none⟩
  | some proto =>
    if !outside.memory then return ⟨500, [], none⟩
    return ⟨101, [(secWebsocketAccept, makeAcceptValue outside.sha1 key), (secWebsocketProtocol, proto),
      (ascii "Upgrade", websocket)], some proto⟩

def afbWebsockCheckUpgrade (outside : Outside) (protodefs : List Bytes) (con : Connection) : Option Response :=
  if getMethod con.method ≠ .get ∨ strcasecmp con.version (ascii "HTTP/1.1") ≠ .eq then none
  else checkWebsocketUpgrade outside protodefs con

/-- The protocols of the server. -/
def protodefs : List Bytes := [ascii "x-afb-ws-json1"]

/-! The words of a header. -/

theorem eachWord_words {α : Type} (f : Bytes → Option α) (n : Nat) (header : Bytes) (h : header.length < n) :
    eachWord f n header = (words vseparator header).findSome? f := by
  induction n generalizing header with
  | zero => exact absurd h (Nat.not_lt_zero _)
  | succ n ih =>
    rw [eachWord, ← words_skip header]
    have hskip : (header.dropWhile vseparator).length ≤ header.length := (List.dropWhile_suffix _).length_le
    cases hrest : header.dropWhile vseparator with
    | nil => rfl
    | cons b rest =>
      have hb := stop_of_dropWhile hrest
      rw [hrest, List.length_cons] at hskip
      have hless := (List.dropWhile_suffix (l := rest) (!vseparator ·)).length_le
      rw [if_neg (List.cons_ne_nil b rest), words_cons rest hb, List.findSome?_cons,
        List.takeWhile_cons_of_pos (by simp [hb]), List.dropWhile_cons_of_pos (by simp [hb]), ih _ (by omega)]
      cases f (b :: rest.takeWhile (!vseparator ·)) <;> rfl

/-- The name of a protocol: visible characters that are not commas. -/
def Token (p : Bytes) : Prop := p ≠ [] ∧ ∀ b ∈ p, 33 ≤ b ∧ b ≠ comma

instance (p : Bytes) : Decidable (Token p) := @instDecidableAnd _ _ inferInstance (List.decidableBAll _ p)

private theorem Token.not_separator {p : Bytes} (h : Token p) {b : UInt8} (hb : b ∈ p) : vseparator b =
    false := by
  obtain ⟨hle, hcomma⟩ := h.2 b hb
  refine decide_eq_false fun hsep => ?_
  rcases hsep with rfl | rfl | rfl
  · exact absurd hle (by decide)
  · exact absurd hle (by decide)
  · exact hcomma rfl

theorem Token.not_nul {p : Bytes} (h : Token p) : 0 ∉ p := fun hb => absurd (h.2 0 hb).1 (by decide)

/-- A token followed by the end, or by a separator, is a word. -/
theorem words_token {p : Bytes} (h : Token p) (rest : Bytes) (hrest : ∀ b ∈ rest.head?, vseparator b = true) :
    words vseparator (p ++ rest) = p :: words vseparator rest := by
  obtain ⟨b, p, rfl⟩ := List.exists_cons_of_ne_nil h.1
  have hall : ∀ c ∈ p, (!vseparator c) = true := fun c hc => by
    rw [h.not_separator (List.mem_cons_of_mem b hc)]
    rfl
  have hnone : rest.takeWhile (!vseparator ·) = [] ∧ rest.dropWhile (!vseparator ·) = rest := by
    cases rest with
    | nil => exact ⟨rfl, rfl⟩
    | cons c rest => simp [hrest c rfl]
  rw [List.cons_append, words_cons _ (h.not_separator List.mem_cons_self), List.takeWhile_append_of_pos hall,
    List.dropWhile_append_of_pos hall, hnone.1, hnone.2, List.append_nil]

/-- The comparison with the first characters is the one of the names. -/
theorem isproto_iff {name word : Bytes} (hname : 0 ∉ name) :
    strcasecmp (name.take word.length) word = .eq ∧ name.getD word.length 0 = 0 ↔ strcasecmp name word = .eq := by
  rw [strcasecmp_eq, strcasecmp_eq]
  constructor
  · rintro ⟨heq, hend⟩
    have hle : name.length ≤ word.length := by
      by_contra hlt
      have hlt := Nat.not_le.mp hlt
      rw [List.getD_eq_getElem?_getD, List.getElem?_eq_getElem hlt, Option.getD_some] at hend
      exact hname (hend ▸ List.getElem_mem hlt)
    rwa [List.take_of_length_le hle] at heq
  · intro heq
    have hlength : name.length = word.length := by simpa using congrArg List.length heq
    rw [← hlength, List.take_length]
    exact ⟨heq, by rw [List.getD_eq_getElem?_getD, List.getElem?_eq_none (Nat.le_refl _)]; rfl⟩

end AfbBinder.Hsrv.Upgrade
