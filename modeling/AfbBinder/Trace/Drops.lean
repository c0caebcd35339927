import AfbBinder.Lib.Runs
import AfbBinder.Trace.Model

/-! What remains of the hooks after a drop: a uuid is never recorded in the hooks. -/
namespace AfbBinder.Trace
open Lib.Cstrings Lib.Runs WrapJson HookFlags
open Lib.Json (ascii)

def Handler.session? : Handler → Option SessionId
  | .xreq _ _ given _ => given
  | _ => none

section
variable {D : Type}

/-- The names that an optional array gives. -/
def strings (object : Option (Json D)) : List Bytes := (optarrayOf object).filterMap unpackString

/-- A drop request asks for the hooks created with a tag, an event name or a uuid of its own. -/
def asks (args : Json D) (origin : Origin) : Bool :=
  match args with
  | .boolean rc => rc
  | .object members =>
    origin.tag ∈ strings (field (ascii "tag") members) ∨
      origin.event ∈ strings (field (ascii "event") members) ∨
      origin.uuid.any fun uuid => uuid ∈ strings (field (ascii "uuid") members)
  | _ => false

/-- A drop request reaches the hooks that have the record of its tag, or its event name. -/
def reaches (args : Json D) (hook : Hook) : Bool :=
  match args with
  | .boolean rc => rc
  | .object members =>
    (hook.tag.isSome ∧ hook.origin.tag ∈ strings (field (ascii "tag") members)) ∨
      hook.origin.event ∈ strings (field (ascii "event") members)
  | _ => false

/-- What a drop and the closing of a session are for. -/
def Right (t : AfbTrace) : Op D → Prop
  | .add _ _ => True
  | .drop sessions args => ∀ type, (afbTraceDrop sessions args t).1.hooks type =
      (t.hooks type).filter fun hook => !asks args hook.origin
  | .close session => ∀ type, (sessionClosed t session).hooks type =
      (t.hooks type).filter fun hook => hook.handler.session? ≠ some session

/-- The hooks that a drop asks for are reached by their tag or their event, and no hook is there
for a session that closes. -/
def Reached (t : AfbTrace) : Op D → Prop
  | .add _ _ => True
  | .drop _ args => ∀ type, ∀ hook ∈ t.hooks type, asks args hook.origin → reaches args hook
  | .close session => ∀ type, ∀ hook ∈ t.hooks type, hook.handler.session? ≠ some session

/-- Records with a number and a name each of its own. -/
structure Recorded (name : Bytes → Bytes) (records : List (Nat × Bytes)) (next : Nat) : Prop where
  numbers : (records.map Prod.fst).Nodup
  names : (records.map fun record => name record.2).Nodup
  fresh : ∀ record ∈ records, record.1 < next

structure Inv (t : AfbTrace) : Prop where
  tags : Recorded id t.tags t.next
  events : Recorded evtidName t.events t.next
  hookTag : ∀ type, ∀ hook ∈ t.hooks type, ∀ tag, hook.tag = some tag →
    (tag, hook.origin.tag) ∈ t.tags
  hookEvent : ∀ type, ∀ hook ∈ t.hooks type, ∃ fullname, (hook.event, fullname) ∈ t.events ∧
    evtidName fullname = hook.origin.event
  noSession : ∀ type, ∀ hook ∈ t.hooks type, hook.session = none

section
variable {name : Bytes → Bytes} {records : List (Nat × Bytes)} {next number : Nat} {n text : Bytes}

private theorem find_name (name : Bytes → Bytes)
    (h : (records.find? fun record => name record.2 = n).map Prod.fst = some number) :
    ∃ text, (number, text) ∈ records ∧ name text = n := by
  obtain ⟨record, hrecord, rfl⟩ := Option.map_eq_some_iff.mp h
  have hname := List.find?_some hrecord
  exact ⟨record.2, List.mem_of_find?_eq_some hrecord, of_decide_eq_true hname⟩

/-- The record found is the one of the name. -/
theorem Recorded.found (h : Recorded name records next)
    (hfind : (records.find? fun record => name record.2 = n).map Prod.fst = some number)
    {other : Nat} (hmem : (other, text) ∈ records) : other = number ↔ name text = n := by
  obtain ⟨own, hown, rfl⟩ := find_name name hfind
  constructor
  · rintro rfl
    have := List.inj_on_of_nodup_map h.numbers hmem hown rfl
    rw [(Prod.mk.inj this).2]
  · intro heq
    have := List.inj_on_of_nodup_map h.names hmem hown heq
    exact (Prod.mk.inj this).1

private theorem not_found (name : Bytes → Bytes)
    (hfind : (records.find? fun record => name record.2 = n).map Prod.fst = none)
    (hmem : (number, text) ∈ records) : name text ≠ n := by
  have hnone := List.find?_eq_none.mp (Option.map_eq_none_iff.mp hfind) _ hmem
  simpa using hnone

private theorem Recorded.cons (h : Recorded name records next)
    (hfind : (records.find? fun record => name record.2 = n).map Prod.fst = none)
    (hname : name text = n) : Recorded name ((next, text) :: records) (next + 1) := by
  refine ⟨List.nodup_cons.mpr ⟨fun hmem => ?_, h.numbers⟩,
    List.nodup_cons.mpr ⟨fun hmem => ?_, h.names⟩, fun record hrecord => ?_⟩
  · obtain ⟨record, hrecord, heq⟩ := List.mem_map.mp hmem
    exact absurd heq (Nat.ne_of_lt (h.fresh record hrecord))
  · obtain ⟨record, hrecord, heq⟩ := List.mem_map.mp hmem
    have hrecord : (record.1, record.2) ∈ records := hrecord
    exact not_found name hfind hrecord (heq.trans hname)
  · rcases List.mem_cons.mp hrecord with rfl | hrecord
    · exact Nat.lt_succ_self next
    · exact Nat.lt_succ_of_lt (h.fresh record hrecord)

private theorem Recorded.later (h : Recorded name records next) : Recorded name records (next + 1) :=
  ⟨h.numbers, h.names, fun record hrecord => Nat.lt_succ_of_lt (h.fresh record hrecord)⟩

private theorem Recorded.filter (h : Recorded name records next) (p : Nat × Bytes → Bool) :
    Recorded name (records.filter p) next :=
  ⟨h.numbers.sublist (List.filter_sublist.map _), h.names.sublist (List.filter_sublist.map _),
    fun record hrecord => h.fresh record (List.mem_of_mem_filter hrecord)⟩

end

section
variable {t t' : AfbTrace} {te : AfbTrace × List Error} {hook : Hook} {type : TraceType}
  {tag event : Nat} {desc : Desc} {errors errors' : List Error}

/-- The trace without the hooks of a kind. -/
def AfbTrace.without (t : AfbTrace) (p : Hook → Bool) : AfbTrace :=
  { t with hooks := fun type => (t.hooks type).filter fun hook => !p hook }

private theorem without_congr {p q : Hook → Bool} (h : ∀ type, ∀ hook ∈ t.hooks type, p hook = q hook) :
    t.without p = t.without q := by
  have hhooks : (t.without p).hooks = (t.without q).hooks := by
    funext type
    exact List.filter_congr fun hook hhook => by rw [h type hook hhook]
  exact congrArg (fun hooks => ({ t with hooks } : AfbTrace)) hhooks

private theorem without_none {p : Hook → Bool} (h : ∀ type, ∀ hook ∈ t.hooks type, p hook = false) :
    t.without p = t := by
  have hhooks : (t.without p).hooks = t.hooks := by
    funext type
    exact List.filter_eq_self.mpr fun hook hhook => by rw [h type hook hhook]; rfl
  exact congrArg (fun hooks => ({ t with hooks } : AfbTrace)) hhooks

private theorem without_without (p q : Hook → Bool) :
    (t.without p).without q = t.without fun hook => p hook || q hook := by
  have hhooks : ((t.without p).without q).hooks =
      (t.without fun hook => p hook || q hook).hooks := by
    funext type
    refine List.filter_filter.trans (List.filter_congr fun hook _ => ?_)
    rw [Bool.not_or, Bool.and_comm]
  exact congrArg (fun hooks => ({ t with hooks } : AfbTrace)) hhooks

private theorem Inv.without (h : Inv t) (p : Hook → Bool) : Inv (t.without p) :=
  ⟨h.tags, h.events, fun type hook hhook => h.hookTag type hook (List.mem_of_mem_filter hhook),
    fun type hook hhook => h.hookEvent type hook (List.mem_of_mem_filter hhook),
    fun type hook hhook => h.noSession type hook (List.mem_of_mem_filter hhook)⟩

private theorem traceUnhook_without (t : AfbTrace) (tag event : Option Nat) (session : Option SessionId) :
    traceUnhook t tag event session = t.without fun hook => !stays tag event session hook := by
  have hhooks : (traceUnhook t tag event session).hooks =
      (t.without fun hook => !stays tag event session hook).hooks := by
    funext type
    exact List.filter_congr fun hook _ => (Bool.not_not _).symm
  exact congrArg (fun hooks => ({ t with hooks } : AfbTrace)) hhooks

/-- The hooks that an element of a drop request reaches, by their tag then by their event. -/
def byTag (object : Json D) (hook : Hook) : Bool :=
  hook.tag.isSome && unpackString object = some hook.origin.tag

def byEvent (object : Json D) (hook : Hook) : Bool :=
  unpackString object = some hook.origin.event

private theorem dropTag_without (h : Inv te.1) (object : Json D) :
    (dropTag te object).1 = te.1.without (byTag object) := by
  unfold dropTag
  cases hname : unpackString object with
  | none => exact (without_none fun type hook _ => by simp [byTag, hname]).symm
  | some name =>
    dsimp only
    cases hsearch : searchTag te.1 name with
    | none =>
      refine (without_none fun type hook hhook => ?_).symm
      rw [byTag, hname]
      cases htag : hook.tag with
      | none => rfl
      | some number =>
        have hne := not_found id hsearch (h.hookTag type hook hhook number htag)
        simpa using Ne.symm hne
    | some tag =>
      dsimp only
      rw [traceUnhook_without]
      refine without_congr fun type hook hhook => ?_
      rw [byTag, hname]
      cases htag : hook.tag with
      | none => simp [stays, htag]
      | some number =>
        have hiff := h.tags.found hsearch (h.hookTag type hook hhook number htag)
        simp [stays, htag, hiff, eq_comm]

private theorem dropEvent_without (h : Inv te.1) (object : Json D) :
    (dropEvent te object).1 = te.1.without (byEvent object) := by
  unfold dropEvent
  cases hname : unpackString object with
  | none => exact (without_none fun type hook _ => by simp [byEvent, hname]).symm
  | some name =>
    dsimp only
    cases hsearch : searchEvent te.1 name with
    | none =>
      refine (without_none fun type hook hhook => ?_).symm
      obtain ⟨fullname, hmem, hown⟩ := h.hookEvent type hook hhook
      have hne := not_found evtidName hsearch hmem
      rw [byEvent, hname]
      simpa [hown] using Ne.symm hne
    | some event =>
      dsimp only
      rw [traceUnhook_without]
      refine without_congr fun type hook hhook => ?_
      obtain ⟨fullname, hmem, hown⟩ := h.hookEvent type hook hhook
      have hiff := h.events.found hsearch hmem
      rw [hown] at hiff
      rw [byEvent, hname]
      simpa [stays, eq_comm] using hiff

/-- No hook has a session of its own, so that a drop by uuid removes nothing. -/
theorem dropSession_same (h : Inv te.1) (sessions : Bytes → Option SessionId) (object : Json D) :
    (dropSession sessions te object).1 = te.1 := by
  unfold dropSession
  cases unpackString object with
  | none => rfl
  | some uuid =>
    dsimp only
    cases sessions uuid with
    | none => rfl
    | some session =>
      dsimp only
      rw [traceUnhook_without]
      exact without_none fun type hook hhook => by simp [stays, h.noSession type hook hhook]

private theorem dropTags_without (te : AfbTrace × List Error) (h : Inv te.1) (objects : List (Json D)) :
    (objects.foldl dropTag te).1 =
      te.1.without fun hook => objects.any fun object => byTag object hook := by
  induction objects generalizing te with
  | nil => exact (without_none fun _ _ _ => rfl).symm
  | cons object objects ih =>
    have hone := dropTag_without h object
    rw [List.foldl_cons, ih _ (by rw [hone]; exact h.without _), hone, without_without]
    rfl

private theorem dropEvents_without (h : Inv te.1) (objects : List (Json D)) :
    (objects.foldl dropEvent te).1 =
      te.1.without fun hook => objects.any fun object => byEvent object hook := by
  induction objects generalizing te with
  | nil => exact (without_none fun _ _ _ => rfl).symm
  | cons object objects ih =>
    have hone := dropEvent_without h object
    rw [List.foldl_cons, ih (by rw [hone]; exact h.without _), hone, without_without]
    rfl

private theorem dropSessions_same (h : Inv te.1) (sessions : Bytes → Option SessionId)
    (objects : List (Json D)) : (objects.foldl (dropSession sessions) te).1 = te.1 := by
  induction objects generalizing te with
  | nil => rfl
  | cons object objects ih =>
    have hone := dropSession_same h sessions object
    rw [List.foldl_cons, ih (by rw [hone]; exact h), hone]

/-- The records in use stay. -/
theorem Inv.cleanup (h : Inv t) : Inv (traceCleanup t) := by
  have hall : ∀ type, type ∈ traceTypes := by
    intro type
    cases type <;> decide
  refine ⟨h.tags.filter _, h.events.filter _, fun type hook hhook tag htag => ?_,
    fun type hook hhook => ?_, h.noSession⟩
  · refine List.mem_filter.mpr ⟨h.hookTag type hook hhook tag htag, ?_⟩
    exact List.any_eq_true.mpr ⟨type, hall type,
      List.any_eq_true.mpr ⟨hook, hhook, decide_eq_true htag⟩⟩
  · obtain ⟨fullname, hmem, hown⟩ := h.hookEvent type hook hhook
    refine ⟨fullname, List.mem_filter.mpr ⟨hmem, ?_⟩, hown⟩
    exact List.any_eq_true.mpr ⟨type, hall type,
      List.any_eq_true.mpr ⟨hook, hhook, decide_eq_true rfl⟩⟩

private theorem any_strings (object : Option (Json D)) (name : Bytes) :
    ((optarrayOf object).any fun object => unpackString object = some name) =
      decide (name ∈ strings object) := by
  rw [Bool.eq_iff_iff, List.any_eq_true, decide_eq_true_eq, strings, List.mem_filterMap]
  simp only [decide_eq_true_eq]

private theorem any_byTag (object : Option (Json D)) (hook : Hook) :
    ((optarrayOf object).any fun object => byTag object hook) =
      (hook.tag.isSome && decide (hook.origin.tag ∈ strings object)) := by
  rw [← any_strings]
  unfold byTag
  cases hook.tag.isSome with
  | false => simp
  | true => rfl

/-- What a drop request leaves. -/
theorem afbTraceDrop_without (h : Inv t) (sessions : Bytes → Option SessionId) (args : Json D) :
    Inv (afbTraceDrop sessions args t).1 ∧
      (afbTraceDrop sessions args t).1.hooks = (t.without (reaches args)).hooks := by
  have hnothing : ∀ {p : Hook → Bool}, (∀ hook, p hook = false) → t.hooks = (t.without p).hooks :=
    fun hp => by rw [without_none fun _ hook _ => hp hook]
  cases args with
  | boolean rc =>
    cases rc with
    | false => exact ⟨h, hnothing fun _ => rfl⟩
    | true =>
      have hunhook := traceUnhook_without t none none none
      refine ⟨Inv.cleanup (by rw [hunhook]; exact h.without _), ?_⟩
      change (traceUnhook t none none none).hooks = _
      rw [hunhook]
      rfl
  | object members =>
    rw [afbTraceDrop]
    dsimp only
    split
    · have htags := dropTags_without (t, []) h (optarrayOf (field (ascii "tag") members))
      have hinv : Inv ((optarrayOf (field (ascii "tag") members)).foldl dropTag (t, [])).1 := by
        rw [htags]
        exact h.without _
      have hevents := dropEvents_without hinv (optarrayOf (field (ascii "event") members))
      have hinv' : Inv ((optarrayOf (field (ascii "event") members)).foldl dropEvent
          ((optarrayOf (field (ascii "tag") members)).foldl dropTag (t, []))).1 := by
        rw [hevents]
        exact hinv.without _
      have hboth : ((optarrayOf (field (ascii "event") members)).foldl dropEvent
          ((optarrayOf (field (ascii "tag") members)).foldl dropTag (t, []))).1 =
            t.without (reaches (.object members)) := by
        rw [hevents, htags, without_without]
        refine without_congr fun type hook _ => ?_
        rw [any_byTag, reaches, Bool.decide_or, Bool.decide_and]
        exact congrArg₂ _ (by cases hook.tag.isSome <;> rfl) (any_strings _ _)
      rw [dropSessions_same hinv' sessions]
      refine ⟨hinv'.cleanup, ?_⟩
      rw [← hboth]
      rfl
    · rename_i hnone
      simp only [not_or, Bool.not_eq_true, Option.isSome_eq_false_iff, Option.isNone_iff_eq_none]
        at hnone
      refine ⟨h, hnothing fun hook => ?_⟩
      rw [reaches, hnone.1, hnone.2.1]
      simp [strings, optarrayOf]
  | _ => exact ⟨h, hnothing fun _ => rfl⟩

private theorem filter_eq_iff {α : Type} {p q : α → Bool} {l : List α} :
    l.filter p = l.filter q ↔ ∀ a ∈ l, p a = q a := by
  refine ⟨fun h a ha => ?_, List.filter_congr⟩
  have hmem : a ∈ l.filter p ↔ a ∈ l.filter q := by rw [h]
  rw [List.mem_filter, List.mem_filter, and_iff_right ha, and_iff_right ha] at hmem
  exact Bool.eq_iff_iff.mpr hmem

/-- A hook that is reached is asked for. -/
theorem asks_of_reaches (args : Json D) (hook : Hook) (h : reaches args hook = true) :
    asks args hook.origin = true := by
  cases args with
  | boolean rc => exact h
  | object members =>
    rw [reaches, decide_eq_true_eq] at h
    rw [asks, decide_eq_true_eq]
    rcases h with h | h
    · exact .inl h.2
    · exact .inr (.inl h)
  | _ => exact h

/-- A step does what it is for exactly when what it asks for is reached. -/
theorem right_iff (h : Inv t) (op : Op D) : Right t op ↔ Reached t op := by
  cases op with
  | add grants args => exact Iff.rfl
  | drop sessions args =>
    refine forall_congr' fun type => ?_
    rw [(afbTraceDrop_without h sessions args).2]
    refine filter_eq_iff.trans (forall_congr' fun hook => forall_congr' fun _ => ?_)
    rw [Bool.not_inj_iff]
    constructor
    · intro heq hasks
      rw [heq, hasks]
    · intro himp
      exact Bool.eq_iff_iff.mpr ⟨asks_of_reaches args hook, himp⟩
  | close session =>
    have hsame : (sessionClosed t session).hooks = t.hooks := by
      unfold sessionClosed
      split
      · have hnone := without_none (t := t)
          (p := fun hook => !stays none none (some session) hook)
          fun type hook hhook => by simp [stays, h.noSession type hook hhook]
        rw [traceUnhook_without, hnone]
      · rfl
    refine forall_congr' fun type => ?_
    rw [hsame, eq_comm, List.filter_eq_self]
    simp only [decide_eq_true_eq]

/-- What keeps the invariant when a record is added. -/
theorem Inv.getTag (h : Inv t) (name : Bytes) (mem : Bool) :
    Inv (traceGetTag t name mem).2 ∧ ∀ tag, (traceGetTag t name mem).1 = some tag →
      (tag, name) ∈ (traceGetTag t name mem).2.tags := by
  unfold traceGetTag
  cases hsearch : searchTag t name with
  | some tag =>
    refine ⟨h, fun other hother => ?_⟩
    obtain ⟨text, hmem, hname⟩ := find_name id hsearch
    rw [← Option.some.inj hother, ← hname]
    exact hmem
  | none =>
    dsimp only
    split
    · refine ⟨⟨h.tags.cons hsearch rfl, h.events.later, fun type hook hhook tag htag => ?_,
        h.hookEvent, h.noSession⟩, fun tag htag => ?_⟩
      · exact List.mem_cons_of_mem _ (h.hookTag type hook hhook tag htag)
      · rw [← Option.some.inj htag]
        exact List.mem_cons_self
    · exact ⟨h, fun tag htag => by cases htag⟩

/-- The name comes back from the full name. -/
theorem evtidName_made (apiname : ApiName) (name : Bytes) :
    evtidName (apiname.text ++ slash :: name) = name := by
  have hdrop : (apiname.text ++ slash :: name).dropWhile (fun c => c ≠ slash) = slash :: name := by
    rw [List.dropWhile_append_of_pos, List.dropWhile_cons_of_neg (by simp)]
    intro c hc
    have hne : c ≠ slash := fun heq => apiname.plain (heq ▸ hc)
    simpa using hne
  rw [evtidName, hdrop]

private theorem Inv.getEvent (h : Inv t) (name : Bytes) (mem : Bool) :
    Inv (traceGetEvent t name mem).2 ∧ (traceGetEvent t name mem).2.tags = t.tags ∧
      ∀ event, (traceGetEvent t name mem).1 = some event → ∃ fullname,
        (event, fullname) ∈ (traceGetEvent t name mem).2.events ∧ evtidName fullname = name := by
  unfold traceGetEvent
  cases hsearch : searchEvent t name with
  | some event =>
    refine ⟨h, rfl, fun other hother => ?_⟩
    obtain ⟨text, hmem, hname⟩ := find_name evtidName hsearch
    rw [← Option.some.inj hother]
    exact ⟨text, hmem, hname⟩
  | none =>
    dsimp only
    split
    · refine ⟨⟨h.tags.later, h.events.cons hsearch (evtidName_made _ _), h.hookTag,
        fun type hook hhook => ?_, h.noSession⟩, rfl, fun event hevent => ?_⟩
      · obtain ⟨fullname, hmem, hown⟩ := h.hookEvent type hook hhook
        exact ⟨fullname, List.mem_cons_of_mem _ hmem, hown⟩
      · rw [← Option.some.inj hevent]
        exact ⟨_, List.mem_cons_self, evtidName_made _ _⟩
    · exact ⟨h, rfl, fun event hevent => by cases hevent⟩

private theorem Inv.openSession (h : Inv t) (session : SessionId) (mem : Bool) :
    Inv (openSession t session mem) := by
  unfold Trace.openSession
  split
  · exact h
  · exact ⟨h.tags, h.events, h.hookTag, h.hookEvent, h.noSession⟩

/-- A hook with its records joins the others. -/
theorem Inv.attach (h : Inv t) (type : TraceType)
    (htag : ∀ tag, hook.tag = some tag → (tag, hook.origin.tag) ∈ t.tags)
    (hevent : ∃ fullname, (hook.event, fullname) ∈ t.events ∧
      evtidName fullname = hook.origin.event)
    (hsession : hook.session = none) : Inv (traceAttachHook t hook type) := by
  have hmem : ∀ other x, x ∈ (traceAttachHook t hook type).hooks other →
      x = hook ∨ x ∈ t.hooks other := by
    intro other x hx
    by_cases heq : other = type
    · subst heq
      have hself : (traceAttachHook t hook other).hooks other = hook :: t.hooks other :=
        Function.update_self other _ _
      rw [hself] at hx
      exact List.mem_cons.mp hx
    · have hother : (traceAttachHook t hook type).hooks other = t.hooks other :=
        Function.update_of_ne heq _ _
      rw [hother] at hx
      exact .inr hx
  refine ⟨h.tags, h.events, fun other x hx => ?_, fun other x hx => ?_, fun other x hx => ?_⟩
  · rcases hmem other x hx with rfl | hx
    · exact htag
    · exact h.hookTag other x hx
  · rcases hmem other x hx with rfl | hx
    · exact hevent
    · exact h.hookEvent other x hx
  · rcases hmem other x hx with rfl | hx
    · exact hsession
    · exact h.noSession other x hx

/-- The session of a hook leaves the records as they are. -/
theorem Inv.gotSession {g : Grants} {session : Option SessionId} (h : Inv t)
    (hs : (if type = .xreq then hookSession t desc g else some (none, t)) = some (session, t')) :
    Inv t' ∧ t'.tags = t.tags ∧ t'.events = t.events := by
  unfold hookSession at hs
  split at hs
  · split at hs
    · cases hs
      exact ⟨h, rfl, rfl⟩
    · obtain ⟨found, -, heq⟩ := Option.map_eq_some_iff.mp hs
      cases heq
      refine ⟨h.openSession found g.cookie, ?_⟩
      unfold Trace.openSession
      split
      · exact ⟨rfl, rfl⟩
      · exact ⟨rfl, rfl⟩
  · cases hs
    exact ⟨h, rfl, rfl⟩

private theorem inv_addhook {g : Grants} (h : Inv t) (hs : addhook g desc type t errors = some te) :
    Inv te.1 := by
  unfold addhook at hs
  split at hs
  · cases hs
    exact h
  · split at hs
    · cases hs
      exact h
    · split at hs
      · cases hs
        exact h
      · dsimp only at hs
        obtain ⟨hinv, htag⟩ := h.getTag (desc.tag.getD DEFAULT_TAG_NAME) g.tag
        obtain ⟨hinv', htags, hevent⟩ := hinv.getEvent (desc.name.getD DEFAULT_EVENT_NAME) g.event
        split at hs
        · cases hs
          exact hinv'
        · rename_i session opened hsession
          obtain ⟨hinv'', htags', hevents'⟩ := hinv'.gotSession hsession
          split at hs
          · cases hs
            exact hinv''
          · obtain ⟨event, hgot, rfl⟩ := Option.map_eq_some_iff.mp hs
            refine hinv''.attach type (fun tag hown => ?_) ?_ rfl
            · rw [htags', htags]
              exact htag tag hown
            · rw [hevents']
              exact hevent event hgot

private theorem inv_addhooks {grants : TraceType → Grants} (h : Inv t)
    (hs : addhooks grants desc t errors = some te) : Inv te.1 := by
  refine foldlM_keeps (I := fun te : AfbTrace × List Error => Inv te.1) ?_ h hs
  intro te type te' hinv hstep
  dsimp only at hstep
  split at hstep
  · exact inv_addhook hinv hstep
  · cases hstep
    exact hinv

private theorem inv_step (op : Op D) (h : Inv t) (hs : step t op = some t') : Inv t' := by
  cases op with
  | add grants args =>
    obtain ⟨te, hte, rfl⟩ := Option.map_eq_some_iff.mp hs
    refine foldlM_keeps (I := fun te : AfbTrace × List Error => Inv te.1) ?_ h hte
    intro te item te' hinv hstep
    exact inv_addhooks hinv hstep
  | drop sessions args =>
    cases hs
    exact (afbTraceDrop_without h sessions args).1
  | close session =>
    cases hs
    unfold sessionClosed
    split
    · have hinv := h.without fun hook => !stays none none (some session) hook
      rw [← traceUnhook_without] at hinv
      exact ⟨hinv.tags, hinv.events, hinv.hookTag, hinv.hookEvent, hinv.noSession⟩
    · exact h

end

/-- In a run, the drops and the closings remove exactly what they are for, as long as each hook
that a drop asks for by its uuid, or by a tag whose record is missing, is reached by its event or
by the record of its tag, and no hook is there for a session that closes. -/
theorem drops_right_iff (apiname : ApiName) (bound : Option SessionId) (ops : List (Op D)) :
    Along step Right (afbTraceCreate apiname bound) ops ↔
      Along step Reached (afbTraceCreate apiname bound) ops := by
  have hstart : Inv (afbTraceCreate apiname bound) := by
    refine ⟨⟨List.nodup_nil, List.nodup_nil, ?_⟩, ⟨List.nodup_nil, List.nodup_nil, ?_⟩, ?_, ?_, ?_⟩
    · intro record hrecord
      cases hrecord
    · intro record hrecord
      cases hrecord
    · intro type hook hhook
      cases hhook
    · intro type hook hhook
      cases hhook
    · intro type hook hhook
      cases hhook
  exact along_iff (fun t op t' h hs => inv_step op h hs) (fun t op h => right_iff h op) hstart ops

end

/-- A trace of the monitor, a hook added for the session of a uuid, then a drop of this uuid. -/
def monitorTrace : AfbTrace := afbTraceCreate ⟨ascii "monitor", by decide⟩ none

def addForUuid : Op Unit :=
  .add (fun _ _ => ⟨true, true, true, some 1, true, true⟩)
    (.object [(ascii "uuid", .string (ascii "u")), (ascii "request", .string (ascii "addref"))])

def uuidArgs : Json Unit := .object [(ascii "uuid", .string (ascii "u"))]

theorem uuid_not_dropped :
    ¬Along step Right monitorTrace [addForUuid, .drop (fun _ => some 1) uuidArgs] := by
  have hlengths : (step monitorTrace addForUuid).map (fun t =>
      (((afbTraceDrop (fun _ => some 1) uuidArgs t).1.hooks .xreq).length,
        ((t.hooks .xreq).filter fun hook => !asks uuidArgs hook.origin).length)) = some (1, 0) := by
    decide +kernel
  obtain ⟨t, ht, hlengths⟩ := Option.map_eq_some_iff.mp hlengths
  obtain ⟨hone, hzero⟩ := Prod.mk.inj hlengths
  intro h
  have hright := congrArg List.length ((h.2 t ht).1 .xreq)
  rw [hone, hzero] at hright
  cases hright

end AfbBinder.Trace
