import AfbBinder.Hsrv.Handlers

/-! The offers of a request to the handlers whose prefix it has. -/
namespace AfbBinder.Hsrv
open Lib.Cstrings

/-- The loop that removes successive slashes. -/
def skipSlashes (hreq : Hreq) (length : Nat) : Nat :=
  if length < hreq.lentail ∧ hreq.tail[length + 1]? = some slash then skipSlashes hreq (length + 1)
  else length
  termination_by hreq.lentail - length

def unprefix (hreq : Hreq) (text : Bytes) (length : Nat) : Option Hreq :=
  if length > hreq.lentail ∨ (hreq.tail[length]?.any fun c => c ≠ slash) ∨
      (text.take length).map tolower ≠ (hreq.tail.take length).map tolower then none
  else
    let length := skipSlashes hreq length
    some { hreq with lentail := hreq.lentail - length, tail := hreq.tail.drop length }

def notFound : Nat := 404

/-- Nothing is replied twice. -/
def replyError (hreq : Hreq) (status : Nat) : Hreq :=
  if hreq.replied.isSome then hreq else { hreq with replied := some status, suspended := false }

/-- A request taken and not replied yet waits. -/
def suspendPending (hreq : Hreq) : Hreq :=
  if hreq.replied = none ∧ hreq.suspended = false then { hreq with suspended := true } else hreq

/-- A call of a handler: the request that it sees, and what it gives back. -/
structure Offer (σ : Type) where
  link : Link σ
  seen : Hreq
  answer : Answer σ

structure Outcome (σ : Type) where
  hreq : Hreq
  world : σ
  offers : List (Offer σ)
  errors : List Nat

section
variable {σ : Type}

/-- The loop of access_handler over the handlers. -/
def search : List (Link σ) → Hreq → σ → Outcome σ
  | [], hreq, world => ⟨replyError hreq notFound, world, [], [notFound]⟩
  | iter :: next, hreq, world =>
    match unprefix hreq iter.text iter.length with
    | none => search next hreq world
    | some hreq =>
      let answer := iter.handler hreq world
      let offer := ⟨iter, hreq, answer⟩
      let hreq := { hreq with replied := answer.replied, suspended := answer.suspended }
      if answer.accepted then ⟨suspendPending hreq, answer.world, [offer], []⟩
      else
        let out := search next { hreq with tail := hreq.url, lentail := hreq.lenurl } answer.world
        { out with offers := offer :: out.offers }

/-- What access_handler does of a request once its body is there. -/
def access (handlers : List (Link σ)) (hreq : Hreq) (world : σ) : Outcome σ :=
  if hreq.scanned then ⟨suspendPending hreq, world, [], []⟩
  else search handlers { hreq with scanned := true } world

/-- A new request for the url. -/
def Hreq.init (url : Bytes) (replied : Option Nat) (suspended : Bool) : Hreq :=
  ⟨url, url.length, url, url.length, false, replied, suspended⟩

/-- The url begins with the text, up to case, then has a slash or ends. -/
def Begins (text url : Bytes) : Prop :=
  ∃ start rest, url = start ++ rest ∧ start.map tolower = text.map tolower ∧
    (rest = [] ∨ rest.head? = some slash)

/-- The url without its first characters and without the redundant slashes that follow. -/
def tailAfter (text url : Bytes) : Bytes :=
  if url.drop text.length = [] then [] else slash :: (url.drop text.length).dropWhile (· = slash)

def begins (text url : Bytes) : Bool :=
  (url.take text.length).map tolower = text.map tolower ∧
    (url[text.length]?.all fun c => c = slash)

variable {text url : Bytes} {hreq : Hreq}

/-- The test of the code, which compares and looks at one character, is that of the prefix. -/
theorem begins_iff : begins text url = true ↔ Begins text url := by
  rw [begins, decide_eq_true_eq]
  constructor
  · rintro ⟨hstart, hrest⟩
    refine ⟨url.take text.length, url.drop text.length, (List.take_append_drop _ _).symm, hstart, ?_⟩
    rw [← List.head?_drop] at hrest
    cases hd : url.drop text.length with
    | nil => exact .inl rfl
    | cons c rest =>
      rw [hd] at hrest
      exact .inr (congrArg some (of_decide_eq_true hrest))
  · rintro ⟨start, rest, rfl, hstart, hrest⟩
    have hlen : start.length = text.length := by simpa using congrArg List.length hstart
    rw [← hlen, List.take_left, ← List.head?_drop, List.drop_left]
    refine ⟨hstart, ?_⟩
    rcases hrest with rfl | hrest
    · rfl
    · rw [hrest]
      rfl

private theorem skipSlashes_drop (n : Nat) (hlen : hreq.lentail = hreq.tail.length)
    (hslash : hreq.tail[n]? = some slash) :
    hreq.tail.drop (skipSlashes hreq n) = slash :: (hreq.tail.drop n).dropWhile (· = slash) := by
  fun_induction skipSlashes hreq n with
  | case1 n h ih =>
    obtain ⟨hn, hget⟩ := List.getElem?_eq_some_iff.mp hslash
    rw [ih h.2, List.drop_eq_getElem_cons hn, hget, List.dropWhile_cons_of_pos (by simp)]
  | case2 n h =>
    obtain ⟨hn, hget⟩ := List.getElem?_eq_some_iff.mp hslash
    rw [List.drop_eq_getElem_cons hn, hget, List.dropWhile_cons_of_pos (by simp)]
    cases hd : hreq.tail.drop (n + 1) with
    | nil => rfl
    | cons c rest =>
      have hc : hreq.tail[n + 1]? = some c := by rw [← List.head?_drop, hd, List.head?_cons]
      have hne : c ≠ slash := by
        rintro rfl
        exact h ⟨by omega, hc⟩
      rw [List.dropWhile_cons_of_neg (by simpa using hne)]

private theorem skipSlashes_end (hlen : hreq.lentail = hreq.tail.length) :
    skipSlashes hreq hreq.tail.length = hreq.tail.length := by
  rw [skipSlashes, if_neg (by omega)]

private theorem take_bare (text : Bytes) : text.take (bare text).length = bare text :=
  (List.prefix_iff_eq_take.mp (List.rdropWhile_prefix _ text)).symm

/-- A request whose tail is its url. -/
structure Whole (url : Bytes) (hreq : Hreq) : Prop where
  ofUrl : hreq.url = url
  tailOfUrl : hreq.tail = url
  lenOfUrl : hreq.lenurl = url.length
  lentailOfUrl : hreq.lentail = url.length

/-- The check of unprefix. -/
theorem refused_iff (link : Link σ) (h : Whole url hreq) :
    (link.length > hreq.lentail ∨ (hreq.tail[link.length]?.any fun c => c ≠ slash) ∨
      (link.text.take link.length).map tolower ≠ (hreq.tail.take link.length).map tolower) ↔
        begins (bare link.text) url = false := by
  rw [h.tailOfUrl, h.lentailOfUrl, link.trimmed, take_bare, ← Bool.not_eq_true, begins,
    decide_eq_true_eq]
  constructor
  · rintro (hlong | hnext | hdiff) ⟨hstart, hrest⟩
    · have hlen := congrArg List.length hstart
      rw [List.length_map, List.length_map, List.length_take] at hlen
      omega
    · cases hc : url[(bare link.text).length]? with
      | none =>
        rw [hc] at hnext
        cases hnext
      | some c =>
        rw [hc] at hnext hrest
        exact of_decide_eq_true hnext (of_decide_eq_true hrest)
    · exact hdiff hstart.symm
  · intro hnot
    by_cases hstart : (url.take (bare link.text).length).map tolower =
        (bare link.text).map tolower
    · refine .inr (.inl ?_)
      cases hc : url[(bare link.text).length]? with
      | none => exact absurd ⟨hstart, by rw [hc]; rfl⟩ hnot
      | some c =>
        refine decide_eq_true fun heq => hnot ⟨hstart, ?_⟩
        rw [hc, heq]
        rfl
    · exact .inr (.inr (Ne.symm hstart))

theorem unprefix_none (link : Link σ) (h : Whole url hreq)
    (hno : begins (bare link.text) url = false) : unprefix hreq link.text link.length = none :=
  if_pos ((refused_iff link h).mpr hno)

theorem unprefix_some (link : Link σ) (h : Whole url hreq)
    (hyes : begins (bare link.text) url = true) :
    unprefix hreq link.text link.length =
      some { hreq with
        lentail := (tailAfter (bare link.text) url).length
        tail := tailAfter (bare link.text) url } := by
  have hpass := (refused_iff link h).not.mpr (by rw [hyes]; decide)
  have hlen : hreq.lentail = hreq.tail.length := by rw [h.lentailOfUrl, h.tailOfUrl]
  have hdrop : hreq.tail.drop (skipSlashes hreq link.length) = tailAfter (bare link.text) url := by
    rw [begins, decide_eq_true_eq] at hyes
    rw [tailAfter, ← link.trimmed, ← h.tailOfUrl]
    cases hc : hreq.tail[link.length]? with
    | none =>
      have hle : hreq.tail.length = link.length := by
        have hge := List.getElem?_eq_none_iff.mp hc
        have hle := not_or.mp hpass |>.1
        omega
      rw [← hle, skipSlashes_end hlen, List.drop_length, if_pos rfl]
    | some c =>
      have hslash : hreq.tail[link.length]? = some slash := by
        have hall := hyes.2
        rw [← link.trimmed, ← h.tailOfUrl, hc] at hall
        rw [hc, of_decide_eq_true hall]
      have hne : hreq.tail.drop link.length ≠ [] := by
        rw [← List.head?_drop] at hc
        intro hnil
        rw [hnil] at hc
        cases hc
      rw [if_neg hne, skipSlashes_drop link.length hlen hslash]
  unfold unprefix
  rw [if_neg hpass]
  dsimp only
  rw [hdrop, hlen, ← List.length_drop, hdrop]

/-- The handlers whose prefix the url has. -/
def concerned (url : Bytes) (handlers : List (Link σ)) : List (Link σ) :=
  handlers.filter fun link => begins (bare link.text) url

private theorem concerned_pos {link : Link σ} (next : List (Link σ))
    (h : begins (bare link.text) url = true) :
    concerned url (link :: next) = link :: concerned url next :=
  List.filter_cons_of_pos h

private theorem concerned_neg {link : Link σ} (next : List (Link σ))
    (h : begins (bare link.text) url = false) :
    concerned url (link :: next) = concerned url next :=
  List.filter_cons_of_neg (by simp [h])

/-- The handler sees the url, and as tail what follows its prefix. -/
structure Offer.Fits (url : Bytes) (offer : Offer σ) : Prop where
  ofUrl : offer.seen.url = url
  tailAfterPrefix : offer.seen.tail = tailAfter (bare offer.link.text) url
  lentailOfTail : offer.seen.lentail = offer.seen.tail.length

/-- No handler has accepted: all those whose prefix the url has were asked, then the request is
answered as not found, if it was not answered before. -/
structure Unserved (url : Bytes) (replied : Option Nat) (handlers : List (Link σ))
    (out : Outcome σ) : Prop where
  asked : out.offers.map Offer.link = concerned url handlers
  refused : ∀ offer ∈ out.offers, offer.answer.accepted = false
  errors : out.errors = [notFound]
  answered : replied = none → (∀ offer ∈ out.offers, offer.answer.replied = none) →
    out.hreq.replied = some notFound

/-- The last handler asked has accepted, and no other. -/
def Accepted (out : Outcome σ) : Prop :=
  ∃ refused last, out.offers = refused ++ [last] ∧
    (∀ offer ∈ refused, offer.answer.accepted = false) ∧ last.answer.accepted = true ∧
      out.errors = []

/-- What the search of a handler is for: the handlers whose prefix the url has get the request,
in order and until one accepts it. -/
structure Served (url : Bytes) (replied : Option Nat) (handlers : List (Link σ))
    (out : Outcome σ) : Prop where
  offered : out.offers.map Offer.link <+: concerned url handlers
  fits : ∀ offer ∈ out.offers, offer.Fits url
  ending : Accepted out ∨ Unserved url replied handlers out

section
variable {next : List (Link σ)} {out : Outcome σ} {offer : Offer σ} {replied : Option Nat}

/-- An offer that is refused, before those of the next handlers. -/
theorem Served.cons (h : Served url offer.answer.replied next out)
    (hbegins : begins (bare offer.link.text) url = true) (hfits : offer.Fits url)
    (hrefused : offer.answer.accepted = false) :
    Served url replied (offer.link :: next) { out with offers := offer :: out.offers } := by
  refine ⟨?_, ?_, ?_⟩
  · rw [concerned_pos next hbegins]
    exact List.cons_prefix_cons.mpr ⟨rfl, h.offered⟩
  · intro o ho
    rcases List.mem_cons.mp ho with rfl | ho
    · exact hfits
    · exact h.fits o ho
  · have hall : ∀ {l : List (Offer σ)}, (∀ o ∈ l, o.answer.accepted = false) →
        ∀ o ∈ offer :: l, o.answer.accepted = false := by
      intro l hl o ho
      rcases List.mem_cons.mp ho with rfl | ho
      · exact hrefused
      · exact hl o ho
    rcases h.ending with ⟨refused, last, hoffers, hno, hyes, herrors⟩ | hun
    · refine .inl ⟨offer :: refused, last, ?_, hall hno, hyes, herrors⟩
      dsimp only
      rw [hoffers, List.cons_append]
    · refine .inr ⟨?_, hall hun.refused, hun.errors, fun _ hnone => ?_⟩
      · rw [concerned_pos next hbegins, ← hun.asked, List.map_cons]
      · exact hun.answered (hnone offer List.mem_cons_self)
          fun o ho => hnone o (List.mem_cons_of_mem _ ho)

private theorem Served.skip {iter : Link σ} (h : Served url replied next out)
    (hno : begins (bare iter.text) url = false) : Served url replied (iter :: next) out := by
  have hsame := concerned_neg next hno
  refine ⟨by rw [hsame]; exact h.offered, h.fits, h.ending.imp_right fun hun => ?_⟩
  exact ⟨by rw [hsame]; exact hun.asked, hun.refused, hun.errors, hun.answered⟩

end

/-- The loop, from a request whose tail is its url. -/
theorem search_served (handlers : List (Link σ)) (world : σ) (h : Whole url hreq) :
    Served url hreq.replied handlers (search handlers hreq world) := by
  induction handlers generalizing hreq world with
  | nil =>
    refine ⟨List.nil_prefix, by simp [search], .inr ⟨rfl, by simp [search], rfl, fun hnone _ => ?_⟩⟩
    rw [search, replyError, if_neg (by simp [hnone])]
  | cons iter next ih =>
    cases hbegins : begins (bare iter.text) url with
    | false =>
      rw [search, unprefix_none iter h hbegins]
      exact (ih world h).skip hbegins
    | true =>
      have hfits : ∀ answer, Offer.Fits url ⟨iter, { hreq with
          lentail := (tailAfter (bare iter.text) url).length
          tail := tailAfter (bare iter.text) url }, answer⟩ := fun _ => ⟨h.ofUrl, rfl, rfl⟩
      rw [search, unprefix_some iter h hbegins]
      dsimp only
      split
      · rename_i haccepted
        refine ⟨?_, ?_, .inl ⟨[], _, rfl, by simp, haccepted, rfl⟩⟩
        · rw [concerned_pos next hbegins]
          exact List.cons_prefix_cons.mpr ⟨rfl, List.nil_prefix⟩
        · intro offer hoffer
          obtain rfl := List.mem_singleton.mp hoffer
          exact hfits _
      · rename_i hrefused
        -- the refused request has its tail again
        have hwhole : ∀ answer : Answer σ, Whole url { hreq with
            tail := hreq.url
            lentail := hreq.lenurl
            replied := answer.replied
            suspended := answer.suspended } := fun _ => ⟨h.ofUrl, h.ofUrl, h.lenOfUrl, h.lenOfUrl⟩
        exact Served.cons (ih _ (hwhole _)) hbegins (hfits _) (by simpa using hrefused)

end

/-- The handlers stand by priority, by length of prefix, then in the order of their calls; each
request is offered in this order to those whose prefix its url has. -/
theorem handlers_serve {σ : Type} (adds : List (Add σ)) (url : Bytes) (replied : Option Nat)
    (suspended : Bool) (world : σ) :
    ((adds.foldl addHandler []).Pairwise fun a b =>
        b.priority < a.priority ∨
          a.priority = b.priority ∧ (bare b.text).length ≤ (bare a.text).length) ∧
      (∀ priority length, (adds.foldl addHandler []).filter (rank priority length) =
        (added adds).filter (rank priority length)) ∧
      Served url replied (adds.foldl addHandler [])
        (access (adds.foldl addHandler []) (Hreq.init url replied suspended) world) := by
  refine ⟨?_, fun priority length => ?_, ?_⟩
  · refine (adds_pairwise adds List.Pairwise.nil).imp fun {a b} h => ?_
    rw [goesPast, decide_eq_true_eq] at h
    rw [← a.trimmed, ← b.trimmed]
    omega
  · exact adds_filter adds priority length List.Pairwise.nil
  · have hwhole : Whole url { Hreq.init url replied suspended with scanned := true } :=
      ⟨rfl, rfl, rfl, rfl⟩
    exact search_served _ world hwhole

end AfbBinder.Hsrv
