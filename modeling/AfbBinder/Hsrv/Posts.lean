import AfbBinder.Hsrv.Offers

/-! The body of a request, that microhttpd gives piece after piece before the handlers are
searched, and the object that is made of a body in JSON. -/
namespace AfbBinder.Hsrv
open Lib.Cstrings

inductive Method where
  | get
  | post
  deriving DecidableEq, Repr

/-- The methods that are served; the letters are put in capitals. -/
def getMethod (method : Bytes) : Option Method :=
  let first := method.getD 0 0 &&& 223
  let second := method.getD 1 0 &&& 223
  if first = 71 then some .get else if first = 80 ∧ second = 79 then some .post else none

def strcasestr (haystack needle : Bytes) : Bool :=
  haystack.tails.any fun t => (t.take needle.length).map tolower = needle.map tolower

/-- application/json -/
def JSON_CONTENT : Bytes := [97, 112, 112, 108, 105, 99, 97, 116, 105, 111, 110, 47, 106, 115, 111, 110]

/-- multipart/form-data -/
def FORM_CONTENT : Bytes := [109, 117, 108, 116, 105, 112, 97, 114, 116, 47, 102, 111, 114, 109, 45, 100, 97, 116, 97]

def badRequest : Nat := 400
def unsupportedMediaType : Nat := 415
def internalServerError : Nat := 500

/-- What json_tokener_parse_ex tells: the object, NULL for null, and where its text ends (what
json_tokener_get_parse_end is for), counted in the bytes that the tokener got for it. -/
inductive Verdict (J : Type) where
  | value (json : Option J) (stop : Nat)
  | more
  | error
  deriving DecidableEq, Repr

/-- The libraries: what a tokener tells of all the bytes that it got since it was made or gave
a value, whether a processor of forms takes more bytes, and whether it ends well. -/
structure Parsers (J : Type) where
  json : Bytes → Verdict J
  form : Bytes → Bytes → Bool
  formEnd : Bytes → Bool

/-- Which allocations succeed. -/
structure Allocations where
  hreq : Bool
  postform : Bool
  tokener : Bool

/-- A request and its body; the tokener and the processor of forms by what they got. -/
structure Post (J : Type) where
  hreq : Hreq
  method : Method
  postform : Option Bytes
  tokener : Option Bytes
  json : Option J

/-- What a call of access_handler leaves: the request, the error replied without one. -/
structure Reached (J σ : Type) where
  post : Option (Post J)
  refused : Option Nat
  world : σ

/-- What microhttpd tells of a request. -/
structure Call where
  url : Bytes
  method : Bytes
  type : Option Bytes

section
variable {J σ : Type} (parsers : Parsers J)

def parseEx (got data : Bytes) : Verdict J × Bytes :=
  match parsers.json (got ++ data) with
  | .value json stop => (.value json stop, [])
  | v => (v, got ++ data)

def replied (post : Post J) (status : Nat) : Post J :=
  { post with hreq := replyError post.hreq status }

/-- The tokener that wants more is told at once that it has all. What follows the text of the
object is not looked at. -/
def processJson (post : Post J) (got data : Bytes) : Post J :=
  let first := parseEx parsers got data
  let last := match first.1 with
    | .more => parseEx parsers first.2 [0]
    | _ => first
  match last.1 with
  | .value json _ => { post with tokener := some last.2, json }
  | _ => replied { post with tokener := some last.2, json := none } badRequest

def processData (post : Post J) (data : Bytes) : Post J :=
  match post.postform, post.tokener with
  | some got, _ =>
    if parsers.form got data then { post with postform := some (got ++ data) }
    else replied post internalServerError
  | none, some got => processJson parsers post got data
  | none, none => post

variable (handlers : List (Link σ))

/-- The end of the body: the handlers are searched, but after an error of the form. -/
def processEnd (post : Post J) (world : σ) : Reached J σ :=
  if post.postform.any fun got => !parsers.formEnd got then
    ⟨some (replied { post with postform := none } badRequest), none, world⟩
  else
    let post := { post with postform := none, tokener := none }
    let out := access handlers post.hreq world
    ⟨some { post with hreq := out.hreq }, none, out.world⟩

def processFurther (post : Post J) (data : Bytes) (world : σ) : Reached J σ :=
  if data ≠ [] then ⟨some (processData parsers post data), none, world⟩
  else processEnd parsers handlers post world

def accessHandler (mem : Allocations) (recordreq : Option (Post J)) (call : Call) (data : Bytes)
    (world : σ) : Reached J σ :=
  match recordreq with
  | some post => processFurther parsers handlers post data world
  | none =>
    match getMethod call.method with
    | none => ⟨none, some badRequest, world⟩
    | some method =>
      if !mem.hreq then ⟨none, some internalServerError, world⟩
      else
        let post : Post J := ⟨Hreq.init call.url none false, method, none, none, none⟩
        match method with
        | .get => processFurther parsers handlers post data world
        | .post =>
          match call.type with
          | none => processFurther parsers handlers { post with method := .get } data world
          | some type =>
            let post :=
              if strcasestr type FORM_CONTENT then
                if mem.postform then { post with postform := some [] }
                else replied post internalServerError
              else if strcasestr type JSON_CONTENT then
                if mem.tokener then { post with tokener := some [] }
                else replied post internalServerError
              else replied post unsupportedMediaType
            ⟨some post, none, world⟩

/-- Once an answer is queued, microhttpd does not call for the rest of the body. -/
def Reached.answered (r : Reached J σ) : Bool :=
  r.refused.isSome || r.post.any fun post => post.hreq.replied.isSome

def giveBody (mem : Allocations) (call : Call) : List Bytes → Reached J σ → Reached J σ
  | [], r => r
  | data :: rest, r =>
    if r.answered then r
    else giveBody mem call rest (accessHandler parsers handlers mem r.post call data r.world)

/-- The request after the pieces of its body, before it is told that there are no more. -/
def postBody (mem : Allocations) (call : Call) (chunks : List Bytes) (world : σ) : Reached J σ :=
  giveBody parsers handlers mem call chunks (accessHandler parsers handlers mem none call [] world)

/-- What a tokener at its start finds in a text that it gets whole, and then the end if it wants
more: an object, and where its text ends. -/
def parseText (text : Bytes) : Option (Option J × Nat) :=
  match parsers.json text with
  | .value json stop => some (json, stop)
  | .more =>
    match parsers.json (text ++ [0]) with
    | .value json stop => some (json, stop)
    | _ => none
  | .error => none

def isBlank (c : UInt8) : Bool := c = 32 ∨ c = 9 ∨ c = 10 ∨ c = 13

/-- The object of a text of JSON, after which there are only blanks. -/
def parseAll (text : Bytes) : Option (Option J) :=
  (parseText parsers text).bind fun found =>
    if (text.drop found.2).all isBlank then some found.1 else none

/-- What is expected of a body in JSON: its object and no error reply, or an error reply when
it is no text of JSON. Neither the end of the body nor what is done then changes the object. -/
structure BodyRight (mem : Allocations) (call : Call) (chunks : List Bytes) (world : σ) : Prop where
  right : ∃ post, (postBody parsers handlers mem call chunks world).post = some post ∧
    (∀ json, parseAll parsers chunks.flatten = some json →
      post.json = json ∧ post.hreq.replied = none) ∧
    (post.hreq.replied ≠ none ↔ parseAll parsers chunks.flatten = none) ∧
    ∀ world', (accessHandler parsers handlers mem (some post) call [] world').post.map Post.json =
      some post.json

end

section
variable {J σ : Type} {parsers : Parsers J}

/-- A tokener at its start makes of a piece what it makes of a whole text. -/
theorem processJson_value {data : Bytes} {json : Option J} {stop : Nat}
    (h : parseText parsers data = some (json, stop)) (post : Post J) :
    processJson parsers post [] data = { post with tokener := some [], json } := by
  unfold parseText at h
  unfold processJson parseEx
  rw [List.nil_append]
  cases hdata : parsers.json data with
  | value j e =>
    rw [hdata] at h
    obtain ⟨rfl, -⟩ := Prod.mk.inj (Option.some.inj h)
    rfl
  | more =>
    rw [hdata] at h
    cases hend : parsers.json (data ++ [0]) with
    | value j e =>
      rw [hend] at h
      obtain ⟨rfl, -⟩ := Prod.mk.inj (Option.some.inj h)
      dsimp only
      rw [hend]
    | more =>
      rw [hend] at h
      cases h
    | error =>
      rw [hend] at h
      cases h
  | error =>
    rw [hdata] at h
    cases h

private theorem processJson_error {data : Bytes} (h : parseText parsers data = none) (post : Post J) :
    ∃ got, processJson parsers post [] data =
      replied { post with tokener := some got, json := none } badRequest := by
  unfold parseText at h
  unfold processJson parseEx
  rw [List.nil_append]
  cases hdata : parsers.json data with
  | value j e =>
    rw [hdata] at h
    cases h
  | more =>
    rw [hdata] at h
    cases hend : parsers.json (data ++ [0]) with
    | value j e =>
      rw [hend] at h
      cases h
    | more =>
      dsimp only
      rw [hend]
      exact ⟨_, rfl⟩
    | error =>
      dsimp only
      rw [hend]
      exact ⟨_, rfl⟩
  | error => exact ⟨_, rfl⟩

/-- The pieces as if each were a text of its own, what follows its object apart: an error if one
of them has none, and otherwise the object of the last piece, NULL without pieces. -/
def parsePieces (parsers : Parsers J) (chunks : List Bytes) : Option (Option J) :=
  chunks.foldlM (fun _ c => (parseText parsers c).map Prod.fst) none

variable {handlers : List (Link σ)} {mem : Allocations} {call : Call}

/-- A request whose tokener is at its start, and that is not answered. -/
structure Awaiting (r : Reached J σ) (post : Post J) : Prop where
  current : r.post = some post
  refused : r.refused = none
  postform : post.postform = none
  tokener : post.tokener = some []
  replied : post.hreq.replied = none

variable (parsers handlers mem call) in
/-- What is left of the pieces that follow. -/
theorem giveBody_pieces {chunks : List Bytes} (hchunks : ∀ c ∈ chunks, c ≠ []) {r : Reached J σ}
    {post : Post J} (h : Awaiting r post) :
    ∃ last, (giveBody parsers handlers mem call chunks r).post = some last ∧
      match chunks.foldlM (fun _ c => (parseText parsers c).map Prod.fst) post.json with
      | some json => last.json = json ∧ last.hreq.replied = none
      | none => last.hreq.replied ≠ none := by
  induction chunks generalizing r post with
  | nil => exact ⟨post, h.current, rfl, h.replied⟩
  | cons c chunks ih =>
    have hopen : r.answered = false := by
      rw [Reached.answered, h.refused, h.current]
      simp [h.replied]
    have hstep : accessHandler parsers handlers mem r.post call c r.world =
        ⟨some (processJson parsers post [] c), none, r.world⟩ := by
      rw [h.current]
      unfold accessHandler processFurther processData
      dsimp only
      rw [if_pos (hchunks c List.mem_cons_self), h.postform, h.tokener]
    rw [giveBody, hopen, if_neg Bool.false_ne_true, hstep, List.foldlM_cons]
    cases hc : parseText parsers c with
    | some found =>
      obtain ⟨json, stop⟩ := found
      rw [processJson_value hc]
      have hnext : Awaiting (⟨some { post with tokener := some [], json }, none, r.world⟩ : Reached J σ)
          { post with tokener := some [], json } := ⟨rfl, rfl, h.postform, rfl, h.replied⟩
      exact ih (fun x hx => hchunks x (List.mem_cons_of_mem c hx)) hnext
    | none =>
      obtain ⟨got, hgot⟩ := processJson_error hc post
      have hreplied : ∀ status, (replyError post.hreq status).replied = some status := by
        intro status
        rw [replyError, h.replied]
        rfl
      refine ⟨replied { post with tokener := some got, json := none } badRequest, ?_, ?_⟩
      · cases chunks with
        | nil => rw [giveBody, hgot]
        | cons c' chunks =>
          have hanswered : Reached.answered (J := J) ⟨some (replied
              { post with tokener := some got, json := none } badRequest), none, r.world⟩ = true := by
            rw [Reached.answered, replied]
            simp [hreplied]
          rw [giveBody, hgot, hanswered, if_pos rfl]
      · change (replyError post.hreq badRequest).replied ≠ none
        rw [hreplied]
        exact Option.some_ne_none _

/-- The end of the body leaves the object. -/
theorem accessHandler_end (post : Post J) (world : σ) :
    (accessHandler parsers handlers mem (some post) call [] world).post.map Post.json =
      some post.json := by
  unfold accessHandler processFurther processEnd
  dsimp only
  rw [if_neg (not_not_intro rfl)]
  split_ifs
  · rfl
  · rfl

end

/-- For every way to cut the body of a post in JSON into pieces: what the handler makes of it is
right exactly when the pieces, each as a whole text, give what the whole body gives. -/
theorem postBody_right_iff {J σ : Type} (parsers : Parsers J) (handlers : List (Link σ))
    (mem : Allocations) (call : Call) (type : Bytes) (chunks : List Bytes) (world : σ)
    (hmethod : getMethod call.method = some .post) (htype : call.type = some type)
    (hform : strcasestr type FORM_CONTENT = false) (hjson : strcasestr type JSON_CONTENT = true)
    (hmem : mem.hreq = true ∧ mem.tokener = true) (hchunks : ∀ c ∈ chunks, c ≠ []) :
    BodyRight parsers handlers mem call chunks world ↔
      parsePieces parsers chunks = parseAll parsers chunks.flatten := by
  have hinit : accessHandler parsers handlers mem none call [] world =
      ⟨some ⟨Hreq.init call.url none false, .post, none, some [], none⟩, none, world⟩ := by
    unfold accessHandler
    rw [hmethod, htype, hmem.1, hmem.2]
    dsimp only
    rw [hform, hjson]
    rfl
  have hstart : Awaiting (⟨some ⟨Hreq.init call.url none false, .post, none, some [], none⟩, none,
      world⟩ : Reached J σ) ⟨Hreq.init call.url none false, .post, none, some [], none⟩ :=
    ⟨rfl, rfl, rfl, rfl, rfl⟩
  obtain ⟨last, hlast, hcase⟩ := giveBody_pieces parsers handlers mem call hchunks hstart
  rw [← hinit] at hlast
  change match parsePieces parsers chunks with
    | some json => last.json = json ∧ last.hreq.replied = none
    | none => last.hreq.replied ≠ none at hcase
  constructor
  · rintro ⟨post, hpost, hvalue, herror, -⟩
    obtain rfl : last = post := Option.some.inj (hlast.symm.trans hpost)
    cases hall : parseAll parsers chunks.flatten with
    | some json =>
      obtain ⟨hj, hnone⟩ := hvalue json hall
      cases hpieces : parsePieces parsers chunks with
      | some j =>
        rw [hpieces] at hcase
        rw [← hj, hcase.1]
      | none =>
        rw [hpieces] at hcase
        exact absurd hnone hcase
    | none =>
      have hsome := herror.mpr hall
      cases hpieces : parsePieces parsers chunks with
      | some j =>
        rw [hpieces] at hcase
        exact absurd hcase.2 hsome
      | none => rfl
  · intro heq
    refine ⟨last, hlast, fun json hall => ?_, ?_, accessHandler_end last⟩
    · rw [heq, hall] at hcase
      exact hcase
    · rw [heq] at hcase
      cases hall : parseAll parsers chunks.flatten with
      | some json =>
        rw [hall] at hcase
        exact iff_of_false (not_not_intro hcase.2) (by simp)
      | none =>
        rw [hall] at hcase
        exact iff_of_true hcase rfl

/-- A body in one piece gives what it is exactly when nothing but blanks follows its object. -/
theorem parsePieces_one {J : Type} (parsers : Parsers J) (body : Bytes) :
    parsePieces parsers [body] = parseAll parsers [body].flatten ↔
      ∀ json stop, parseText parsers body = some (json, stop) → (body.drop stop).all isBlank := by
  rw [parsePieces, List.foldlM_cons, List.flatten_cons, List.flatten_nil, List.append_nil, parseAll]
  cases parseText parsers body with
  | none => simp
  | some found =>
    obtain ⟨json, stop⟩ := found
    rw [Option.bind_some]
    by_cases hblank : (body.drop stop).all isBlank
    · refine iff_of_true (by rw [if_pos hblank]; rfl) fun j e h => ?_
      obtain ⟨-, rfl⟩ := Prod.mk.inj (Option.some.inj h)
      exact hblank
    · refine iff_of_false (fun h => ?_) fun h => hblank (h json stop rfl)
      rw [if_neg hblank] at h
      cases h

/-- Parsers that know the text of the empty object, and nothing else. -/
def braces : Parsers Unit where
  json body := if [123, 125] <+: body then .value (some ()) 2
    else if body <+: [123, 125] then .more else .error
  form _ _ := true
  formEnd _ := true

/-- The empty object in one piece. -/
theorem postBody_one : BodyRight braces ([] : List (Link Unit)) ⟨true, true, true⟩
    ⟨[47], [80, 79, 83, 84], some JSON_CONTENT⟩ [[123, 125]] () :=
  (postBody_right_iff braces [] ⟨true, true, true⟩ ⟨[47], [80, 79, 83, 84], some JSON_CONTENT⟩
    JSON_CONTENT [[123, 125]] () (by decide) rfl (by decide) (by decide) ⟨rfl, rfl⟩
    (by simp)).mpr ((parsePieces_one braces [123, 125]).mpr fun json stop h => by cases h; decide)

/-- The empty object cut between its braces is refused. -/
theorem postBody_cut : ¬BodyRight braces ([] : List (Link Unit)) ⟨true, true, true⟩
    ⟨[47], [80, 79, 83, 84], some JSON_CONTENT⟩ [[123], [125]] () := by
  rintro ⟨post, hpost, hvalue, -⟩
  have hrefused : (postBody braces ([] : List (Link Unit)) ⟨true, true, true⟩
      ⟨[47], [80, 79, 83, 84], some JSON_CONTENT⟩ [[123], [125]] ()).post.bind
        (·.hreq.replied) = some badRequest := by decide
  rw [hpost, Option.bind_some, (hvalue (some ()) (by decide)).2] at hrefused
  cases hrefused

end AfbBinder.Hsrv
