import AfbBinder.Lib.Buffers
import AfbBinder.Lib.Forms
import AfbBinder.Hsrv.Posts

/-! The handlers that read the tail of the url: those of aliases, of apis and of one page sites.
Their readings are checked: one outside of the url and its terminator gives none. -/
namespace AfbBinder.Hsrv
open Lib.Cstrings Lib.Buffers Lib.Forms

def bang : UInt8 := 33
def methodNotAllowed : Nat := 405

/-- while (*i == '/') i++ -/
def skipSlash : Bytes → Option Bytes
  | [] => none
  | c :: i => if c = slash then skipSlash i else some (c :: i)

/-- while (*i && *i != stop) i++ -/
def scanTo (stop : UInt8) : Bytes → Option Bytes
  | [] => none
  | c :: i => if c = 0 ∨ c = stop then some (c :: i) else scanTo stop i

/-- The api and the verb that are called, if any. -/
def afbHswitchApis (hreq : Hreq) : Option (Option (Bytes × Bytes)) := do
  let api ← skipSlash (stored hreq.tail)
  if api.head? = some 0 then return none
  let i ← scanTo slash (api.drop 1)
  let lenapi := api.length - i.length
  let verb ← skipSlash i
  if verb.head? = some 0 then return none
  let i ← scanTo 0 (verb.drop 1)
  let lenverb := verb.length - i.length
  return some (api.take lenapi, verb.take lenverb)

/-- The target of the redirection, if any. -/
def afbHswitchOnePageApiRedirect (hreq : Hreq) : Option (Option Bytes) :=
  if 2 ≤ hreq.lentail ∧ hreq.tail[1]? = some hash then some none
  else do
    let plen := hreq.lenurl - hreq.lentail + 1
    let url := block (hreq.lenurl + 3)
    let url ← write url 0 (← readBytes (stored hreq.url) plen)
    let url ← write url plen [hash]
    let url ← write url (plen + 1) [bang]
    let url ← write url (plen + 2) (← readBytes ((stored hreq.tail).drop 1) hreq.lentail)
    return some (← text url)

section
variable {σ : Type} (replyFile : Bytes → Hreq → σ → Answer σ)

/-- replyFile is afb_hreq_reply_locale_file_if_exist, for the folders of the alias. -/
def handleAlias (relax : Bool) (method : Method) (hreq : Hreq) (world : σ) : Option (Answer σ) :=
  if method ≠ .get then
    if relax then some ⟨false, hreq.replied, hreq.suspended, world⟩
    else
      let hreq := replyError hreq methodNotAllowed
      some ⟨true, hreq.replied, hreq.suspended, world⟩
  else
    (text (((stored hreq.tail).drop 1).map some)).map fun filename =>
      let answer := replyFile filename hreq world
      if answer.accepted ∨ relax then answer
      else
        let hreq := replyError
          { hreq with replied := answer.replied, suspended := answer.suspended } notFound
        ⟨true, hreq.replied, hreq.suspended, answer.world⟩

/-- What is expected of the three handlers, for a prefix of that length. -/
structure HandlersRight (world : σ) (length : Nat) (hreq : Hreq) : Prop where
  aliases : ∀ relax method, (handleAlias replyFile relax method hreq world).isSome
  apis : (afbHswitchApis hreq).isSome
  onePage : (afbHswitchOnePageApiRedirect hreq).isSome
  target : ∀ target, afbHswitchOnePageApiRedirect hreq = some (some target) →
    target = hreq.url.take length ++ slash :: hash :: bang :: hreq.tail.drop 1

end

section
variable {s : Bytes} {stop : UInt8}

private theorem skipSlash_stored (s : Bytes) : skipSlash (stored s) = some
    (stored (s.dropWhile (· = slash))) := by
  induction s with
  | nil => rfl
  | cons c s ih =>
    rw [stored, List.cons_append, skipSlash]
    by_cases hc : c = slash
    · rw [if_pos hc, List.dropWhile_cons_of_pos (by simpa using hc)]
      exact ih
    · rw [if_neg hc, List.dropWhile_cons_of_neg (by simpa using hc)]
      rfl

private theorem scanTo_stored (h : 0 ∉ s) :
    scanTo stop (stored s) = some (stored (s.dropWhile (· ≠ stop))) := by
  induction s with
  | nil => exact if_pos (.inl rfl)
  | cons c s ih =>
    rw [List.mem_cons, not_or] at h
    rw [stored, List.cons_append, scanTo]
    by_cases hc : c = stop
    · rw [if_pos (.inr hc), List.dropWhile_cons_of_neg (by simpa using hc)]
      rfl
    · rw [if_neg (not_or.mpr ⟨Ne.symm h.1, hc⟩), List.dropWhile_cons_of_pos (by simpa using hc)]
      exact ih h.2

private theorem stored_end (h : 0 ∉ s) : (stored s).head? = some 0 ↔ s = [] := by
  cases s with
  | nil => exact iff_of_true rfl rfl
  | cons c s =>
    refine iff_of_false (fun hc => h ?_) (List.cons_ne_nil c s)
    rw [← Option.some_inj.mp hc]
    exact List.mem_cons_self

private theorem notMem_dropWhile {p : UInt8 → Bool} (h : 0 ∉ s) : 0 ∉ s.dropWhile p :=
  fun h0 => h ((List.dropWhile_sublist p).mem h0)

private theorem take_scanned (s : Bytes) (p : UInt8 → Bool) :
    (stored s).take ((stored s).length - (stored (s.dropWhile p)).length) = s.takeWhile p := by
  have hs : stored s = s.takeWhile p ++ stored (s.dropWhile p) := by
    rw [stored, stored, ← List.append_assoc, List.takeWhile_append_dropWhile]
  have hlen : (stored s).length - (stored (s.dropWhile p)).length = (s.takeWhile p).length := by
    rw [hs, List.length_append, Nat.add_sub_cancel]
  rw [hlen, hs, List.take_left]

/-- The scan of an item, from the character after its first one. -/
theorem scanTo_item (h : 0 ∉ s) (hne : s ≠ []) (hstop : s.head? ≠ some stop) :
    scanTo stop ((stored s).drop 1) = some (stored (s.dropWhile (· ≠ stop))) := by
  cases s with
  | nil => exact absurd rfl hne
  | cons c s =>
    have hc : c ≠ stop := fun he => hstop (congrArg some he)
    rw [List.dropWhile_cons_of_pos (by simpa using hc)]
    exact scanTo_stored fun h0 => h (List.mem_cons_of_mem c h0)

private theorem head?_skipped (s : Bytes) : (s.dropWhile (· = slash)).head? ≠ some slash := by
  intro heq
  have hstart := List.head?_dropWhile_not (· = slash) s
  rw [heq] at hstart
  cases hstart

/-- The api and the verb are the two first items of the tail, where the verb goes to the end. -/
theorem afbHswitchApis_items {hreq : Hreq} (h : 0 ∉ hreq.tail) :
    afbHswitchApis hreq =
      let api := hreq.tail.dropWhile (· = slash)
      let verb := (api.dropWhile (· ≠ slash)).dropWhile (· = slash)
      some (if api = [] ∨ verb = [] then none else some (api.takeWhile (· ≠ slash), verb)) := by
  have hapi := notMem_dropWhile (p := (· = slash)) h
  have hstart := head?_skipped hreq.tail
  rw [afbHswitchApis, skipSlash_stored]
  dsimp only [Option.bind_eq_bind, Option.bind_some]
  generalize hreq.tail.dropWhile (· = slash) = api at hapi hstart
  by_cases hnil : api = []
  · rw [if_pos ((stored_end hapi).mpr hnil), if_pos (.inl hnil)]
    rfl
  rw [if_neg (mt (stored_end hapi).mp hnil), scanTo_item hapi hnil hstart]
  dsimp only [Option.bind_some]
  rw [skipSlash_stored, take_scanned]
  dsimp only [Option.bind_some]
  have hverb : 0 ∉ (api.dropWhile (· ≠ slash)).dropWhile (· = slash) :=
    notMem_dropWhile (notMem_dropWhile hapi)
  generalize (api.dropWhile (· ≠ slash)).dropWhile (· = slash) = verb at hverb
  by_cases hend : verb = []
  · rw [if_pos ((stored_end hverb).mpr hend), if_pos (.inr hend)]
    rfl
  have hfree : ∀ c ∈ verb, decide (c ≠ 0) = true := fun c hc => decide_eq_true fun he => hverb (he ▸ hc)
  have hall : verb.takeWhile (· ≠ 0) = verb := List.takeWhile_eq_self_iff.mpr hfree
  have hhead : verb.head? ≠ some 0 := fun hc => hverb (List.mem_of_head? hc)
  rw [if_neg (mt (stored_end hverb).mp hend), scanTo_item hverb hend hhead]
  dsimp only [Option.bind_some]
  rw [take_scanned, hall, if_neg (not_or.mpr ⟨hnil, hend⟩)]
  rfl

end

section
variable {hreq : Hreq} {start skipped rest : Bytes}

/-- A request whose tail is what the url has after a start and slashes that were skipped. -/
structure Divided (start skipped rest : Bytes) (hreq : Hreq) : Prop where
  url : hreq.url = start ++ slash :: (skipped ++ rest)
  tail : hreq.tail = slash :: rest
  lenurl : hreq.lenurl = hreq.url.length
  lentail : hreq.lentail = hreq.tail.length

/-- The writes fill the buffer. -/
theorem onePage_writes {a b : Bytes} (hguard : ¬(2 ≤ hreq.lentail ∧ hreq.tail[1]? = some hash))
    (hurl : readBytes (stored hreq.url) a.length = some a)
    (htail : readBytes ((stored hreq.tail).drop 1) hreq.lentail = some b)
    (hplen : hreq.lenurl - hreq.lentail + 1 = a.length)
    (hsize : hreq.lenurl + 3 = a.length + (1 + (1 + b.length))) :
    afbHswitchOnePageApiRedirect hreq = (text ((a ++ [hash] ++ [bang] ++ b).map some)).map some := by
  have hfirst : write (block (a.length + (1 + (1 + b.length)))) 0 a =
      some (a.map some ++ block (1 + (1 + b.length))) := write_next (a := []) rfl rfl
  have hsharp : write (a.map some ++ block (1 + (1 + b.length))) a.length [hash] =
      some ((a ++ [hash]).map some ++ block (1 + b.length)) := write_next rfl rfl
  have hbang : write ((a ++ [hash]).map some ++ block (1 + b.length)) (a.length + 1) [bang] =
      some ((a ++ [hash] ++ [bang]).map some ++ block b.length) := write_next (by simp) rfl
  have hlast : write ((a ++ [hash] ++ [bang]).map some ++ block b.length) (a.length + 2) b =
      some ((a ++ [hash] ++ [bang] ++ b).map some ++ block 0) := write_next (by simp) rfl
  rw [afbHswitchOnePageApiRedirect, if_neg hguard]
  dsimp only
  rw [hplen, hsize, hurl, htail]
  dsimp only [Option.bind_eq_bind, Option.bind_some]
  rw [hfirst, Option.bind_some, hsharp, Option.bind_some, hbang, Option.bind_some, hlast,
    Option.bind_some, block, List.replicate_zero, List.append_nil]
  cases text ((a ++ [hash] ++ [bang] ++ b).map some) with
  | none => rfl
  | some target => rfl

private theorem Divided.sharp (h : Divided start skipped rest hreq) :
    (2 ≤ hreq.lentail ∧ hreq.tail[1]? = some hash) ↔ rest.head? = some hash := by
  rw [h.lentail, h.tail, List.getElem?_cons_succ, ← List.head?_eq_getElem?]
  constructor
  · exact And.right
  · intro hhead
    cases rest with
    | nil => cases hhead
    | cons c rest => exact ⟨by simp, hhead⟩

/-- Exactly where the redirection goes: the slashes that were skipped stay. -/
theorem onePage_divided (h : Divided start skipped rest hreq) (h0 : 0 ∉ hreq.url) :
    afbHswitchOnePageApiRedirect hreq = some (if rest.head? = some hash then none
      else some (start ++ slash :: skipped ++ hash :: bang :: rest)) := by
  by_cases hhead : rest.head? = some hash
  · rw [if_pos hhead, afbHswitchOnePageApiRedirect, if_pos (h.sharp.mpr hhead)]
  have hread : stored hreq.url = (start ++ slash :: skipped) ++ stored rest := by
    rw [h.url, stored, stored]
    simp
  have hlenurl := h.lenurl
  have hlentail := h.lentail
  rw [h.url] at hlenurl
  rw [h.tail] at hlentail
  simp only [List.length_append, List.length_cons] at hlenurl hlentail
  have hbody : 0 ∉ start ++ slash :: skipped ++ hash :: bang :: rest := by
    rw [h.url] at h0
    simp only [List.mem_append, List.mem_cons, not_or] at h0 ⊢
    exact ⟨⟨h0.1, h0.2.1, h0.2.2.1⟩, by decide, by decide, h0.2.2.2⟩
  rw [if_neg hhead, onePage_writes (a := start ++ slash :: skipped) (b := stored rest)
    (mt h.sharp.mp hhead)]
  · have hcells : (start ++ slash :: skipped ++ [hash] ++ [bang] ++ stored rest).map some =
        (start ++ slash :: skipped ++ hash :: bang :: rest).map some ++ [some 0] := by
      simp [stored]
    rw [hcells, text_string hbody]
    rfl
  · rw [hread, readBytes_append]
  · have hsize : hreq.lentail = (stored rest).length := by
      rw [hlentail, stored, List.length_append, List.length_singleton]
    rw [h.tail, hsize]
    exact readBytes_all _
  · simp only [List.length_append, List.length_cons]
    omega
  · simp only [List.length_append, List.length_cons, stored, List.length_nil]
    omega

/-- Without a tail, the redirection goes to the url itself. -/
theorem onePage_end (htail : hreq.tail = []) (hlen : hreq.lentail = 0) (hurl : hreq.lenurl = hreq.url.length)
    (h0 : 0 ∉ hreq.url) : afbHswitchOnePageApiRedirect hreq = some (some hreq.url) := by
  rw [onePage_writes (a := stored hreq.url) (b := [])]
  · have hcells : (stored hreq.url ++ [hash] ++ [bang] ++ []).map some =
        hreq.url.map some ++ some 0 :: [some hash, some bang] := by
      simp [stored]
    rw [hcells, text_string h0]
    rfl
  · rw [hlen]
    omega
  · exact readBytes_all _
  · rw [htail, hlen]
    rfl
  · simp only [hlen, hurl, stored, List.length_append, List.length_singleton, Nat.sub_zero]
  · simp only [hurl, stored, List.length_append, List.length_singleton, List.length_nil]

/-- The handler of an alias reads the name after the slash of the tail. -/
theorem handleAlias_isSome {σ : Type} (replyFile : Bytes → Hreq → σ → Answer σ)
    (htail : hreq.tail = slash :: rest) (h0 : 0 ∉ rest) (relax : Bool) (method : Method) (world : σ) :
    (handleAlias replyFile relax method hreq world).isSome := by
  rw [handleAlias]
  by_cases hmethod : method ≠ .get
  · rw [if_pos hmethod]
    cases relax with
    | true => rfl
    | false => rfl
  · have hname : text (((stored hreq.tail).drop 1).map some) = some rest := by
      rw [htail]
      exact text_stored h0
    rw [if_neg hmethod, hname]
    rfl

private theorem handleAlias_end {σ : Type} (replyFile : Bytes → Hreq → σ → Answer σ) (htail : hreq.tail = [])
    (relax : Bool) (world : σ) : handleAlias replyFile relax .get hreq world = none := by
  rw [handleAlias, if_neg (not_not_intro rfl), htail]
  rfl

end

section
variable {σ : Type} {url : Bytes} {hreq offered : Hreq}

/-- What a handler whose prefix the url has gets: no tail when nothing follows the prefix, else
the slash and what follows the slashes. -/
theorem unprefix_divided (link : Link σ) (h : Whole url hreq)
    (hmatch : unprefix hreq link.text link.length = some offered) :
    offered.url = url ∧ offered.lenurl = url.length ∧
      ((url.drop link.length = [] ∧ offered.tail = [] ∧ offered.lentail = 0) ∨
        ∃ s, url.drop link.length = slash :: s ∧ Divided (url.take link.length)
          (s.takeWhile (· = slash)) (s.dropWhile (· = slash)) offered) := by
  cases hbegins : begins (bare link.text) url with
  | false =>
    rw [unprefix_none link h hbegins] at hmatch
    cases hmatch
  | true =>
    rw [unprefix_some link h hbegins] at hmatch
    obtain rfl := Option.some_inj.mp hmatch
    refine ⟨h.ofUrl, h.lenOfUrl, ?_⟩
    rw [begins, decide_eq_true_eq, ← link.trimmed, ← List.head?_drop] at hbegins
    cases hdrop : url.drop link.length with
    | nil =>
      have hnil : tailAfter (bare link.text) url = [] := by
        rw [tailAfter, ← link.trimmed, hdrop, if_pos rfl]
      refine .inl ⟨rfl, hnil, ?_⟩
      dsimp only
      rw [hnil]
      rfl
    | cons c s =>
      rw [hdrop] at hbegins
      obtain rfl : c = slash := of_decide_eq_true hbegins.2
      have htail : tailAfter (bare link.text) url = slash :: s.dropWhile (· = slash) := by
        rw [tailAfter, ← link.trimmed, hdrop, if_neg (List.cons_ne_nil _ _),
          List.dropWhile_cons_of_pos (by simp)]
      refine .inr ⟨s, rfl, ?_, htail, ?_, rfl⟩
      · rw [List.takeWhile_append_dropWhile, ← hdrop, List.take_append_drop]
        exact h.ofUrl
      · dsimp only
        rw [h.lenOfUrl, h.ofUrl]

private theorem whole_init (url : Bytes) (replied : Option Nat) (suspended : Bool) :
    Whole url (Hreq.init url replied suspended) :=
  ⟨rfl, rfl, rfl, rfl⟩

private theorem takeWhile_slash (s : Bytes) : s.takeWhile (· = slash) = [] ↔ s.head? ≠ some slash := by
  cases s with
  | nil => simp
  | cons c s => simp [List.takeWhile_cons]

/-- The handlers read only the url and its terminator, and the redirection goes under the prefix,
if and only if something follows the prefix, and it is not several slashes that go before
something else than a sharp. -/
theorem handlers_right_iff (link : Link σ) (hwhole : Whole url hreq) (hurl : 0 ∉ url)
    (hmatch : unprefix hreq link.text link.length = some offered)
    (replyFile : Bytes → Hreq → σ → Answer σ) (world : σ) :
    HandlersRight replyFile world link.length offered ↔
      url.drop link.length ≠ [] ∧ (url[link.length + 1]? ≠ some slash ∨
        ((url.drop link.length).dropWhile (· = slash)).head? = some hash) := by
  obtain ⟨hofurl, hlenurl, ⟨hdrop, htail, hlentail⟩ | ⟨s, hdrop, hdiv⟩⟩ := unprefix_divided link hwhole hmatch
  · refine iff_of_false (fun hright => ?_) fun hcond => hcond.1 hdrop
    have hread := hright.aliases true .get
    rw [handleAlias_end replyFile htail] at hread
    cases hread
  have hoffered : 0 ∉ offered.url := hofurl ▸ hurl
  have htail : 0 ∉ offered.tail := by
    rw [hdiv.url] at hoffered
    rw [hdiv.tail]
    simp only [List.mem_append, List.mem_cons, not_or] at hoffered ⊢
    exact ⟨hoffered.2.1, hoffered.2.2.2⟩
  have hnext : url[link.length + 1]? = s.head? := by
    rw [← List.getElem?_drop, hdrop, List.getElem?_cons_succ, List.head?_eq_getElem?]
  have hhead : (url.drop link.length).dropWhile (· = slash) = s.dropWhile (· = slash) := by
    rw [hdrop, List.dropWhile_cons_of_pos (by simp)]
  have hpage := onePage_divided hdiv hoffered
  rw [hdrop, hnext, ← takeWhile_slash, ← hdrop, hhead]
  constructor
  · intro hright
    refine ⟨by simp [hdrop], ?_⟩
    by_cases hsharp : (s.dropWhile (· = slash)).head? = some hash
    · exact .inr hsharp
    · rw [if_neg hsharp] at hpage
      have htarget := congrArg List.length (hright.target _ hpage)
      rw [hofurl, hdiv.tail] at htarget
      simp only [List.length_append, List.length_cons, List.drop_succ_cons, List.drop_zero] at htarget
      refine .inl (List.eq_nil_of_length_eq_zero ?_)
      omega
  · rintro ⟨-, hcond⟩
    refine ⟨fun relax method => ?_, ?_, ?_, ?_⟩
    · exact handleAlias_isSome replyFile hdiv.tail
        (fun h0 => htail (hdiv.tail ▸ List.mem_cons_of_mem _ h0)) relax method world
    · rw [afbHswitchApis_items htail]
      rfl
    · rw [hpage]
      rfl
    · intro target htarget
      rw [hpage] at htarget
      rcases hcond with hskipped | hsharp
      · split at htarget
        · cases htarget
        · rw [← Option.some_inj.mp (Option.some_inj.mp htarget), hofurl, hdiv.tail, hskipped]
          simp
      · rw [if_pos hsharp] at htarget
        cases htarget

end

/-- No file exists. -/
def noFile (hreq : Hreq) (world : Unit) : Answer Unit :=
  ⟨false, hreq.replied, hreq.suspended, world⟩

def pages : Link Unit := ⟨[47, 112], 2, noFile, 0, rfl⟩
def icons : Link Unit := ⟨[47, 105, 99, 111, 110, 115], 6, noFile, 0, rfl⟩

/-- A page under its prefix. -/
theorem handlers_right_page : HandlersRight (fun _ => noFile) () 2
    ⟨[47, 112, 47, 120], 4, [47, 120], 2, false, none, false⟩ :=
  (handlers_right_iff pages (whole_init [47, 112, 47, 120] none false) (by decide)
    (unprefix_some pages (whole_init _ none false) (by decide)) (fun _ => noFile) ()).mpr
    ⟨by decide, .inl (by decide)⟩

/-- A prefix alone: after the url, the handler of the alias reads what is not there. -/
theorem handlers_right_icons : ¬∀ (link : Link Unit) (hreq offered : Hreq), Whole hreq.url hreq →
    0 ∉ hreq.url → unprefix hreq link.text link.length = some offered →
      ∀ replyFile, HandlersRight replyFile () link.length offered := by
  intro hall
  have hmatch := unprefix_some icons (whole_init icons.text none false) (by decide)
  have hright := hall icons _ _ ⟨rfl, rfl, rfl, rfl⟩ (by decide) hmatch fun _ => noFile
  have hread := hright.aliases false .get
  cases hread

end AfbBinder.Hsrv
