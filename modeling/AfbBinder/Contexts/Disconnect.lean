import AfbBinder.Sessions.Destruction
import AfbBinder.Contexts.Model

/-! What a disconnection leaves in the session: all of the closing, or nothing. -/
namespace AfbBinder.Contexts
open Lib.Cstrings Lib.Runs Lib.Updates Sessions

/-- The set and the context of one request. -/
structure Request where
  set : SessionSet
  context : Context

def Request.start : Request := ⟨.start, .start⟩

/-- The calls on the context, what its users write in it, and the calls of the others on
the sessions. -/
inductive ContextOp where
  | session (op : Op)
  | init (session : SessionId) (token : Option Bytes)
  | connect (uuid token : Option Bytes) (news : List Bytes) (mem : Bool)
  | flags (flags : Flags)
  | apiKey (key : Nat)
  | make (replace : Bool) (makecb freecb : Option Nat) (closure : Nat) (mem : Bool)
  | set (value : Nat) (freecb : Option Nat) (mem : Bool)
  | close
  | refresh (new : Bytes)
  | changeLoa (loa : Nat) (mem : Bool)
  | sentToken (new : Bytes)
  | disconnect (new : Bytes) (mem mem' : Bool)

/-- The others do not drop the reference of the context. -/
def spares (r : Request) : Op → Bool
  | .unref i => r.context.session != some i || decide (1 < r.set.owned i)
  | _ => true

def contextStep (r : Request) : ContextOp → Option Request
  | .session op => if spares r op then (step r.set op).map fun s => ⟨s, r.context⟩ else none
  | .init i token =>
    if r.context.session = none ∧ 0 < r.set.owned i then
      some ⟨(afbContextInit r.set i token).1.own i, (afbContextInit r.set i token).2⟩
    else none
  | .connect uuid token news mem =>
    if r.context.session = none then
      (afbContextConnect r.set uuid token news mem).map fun x =>
        match x.1 with
        | .error _ => ⟨x.2, r.context⟩
        | .ok c => ⟨given (c.session, x.2), c⟩
    else none
  | .flags f => some { r with context := { r.context with flags := f } }
  | .apiKey key => some { r with context := { r.context with apiKey := key } }
  | .make replace makecb freecb closure mem =>
    (afbContextMake r.set r.context replace makecb freecb closure mem).map fun x =>
      ⟨x.2, r.context⟩
  | .set value freecb mem =>
    (afbContextSet r.set r.context value freecb mem).map fun x => ⟨x.2, r.context⟩
  | .close => some { r with context := afbContextClose r.context }
  | .refresh new => (afbContextRefresh r.set r.context new).map fun x => ⟨x.1, x.2⟩
  | .changeLoa loa mem =>
    (afbContextChangeLoa r.set r.context loa mem).map fun x => ⟨x.2, r.context⟩
  | .sentToken new =>
    let x := afbContextSentToken r.set r.context new
    some ⟨x.2.1, x.2.2⟩
  | .disconnect new mem mem' =>
    let x := afbContextDisconnect r.set r.context new mem mem'
    some ⟨(r.context.session.map x.1.disown).getD x.1, x.2⟩

/-- What is read of the session at a key: a destroyed session holds nothing. -/
def reads (s : SessionSet) (i : SessionId) (key : Nat) : Nat :=
  if destroyed s i then 0 else (afbSessionGetCookie s i key).1

/-- The closing effect is whole when the context is closing and absent when it is not. -/
def AllOrNothing (s : SessionSet) (c : Context) (i : SessionId) (t : SessionSet) : Prop :=
  if c.flags.closing then reads t i c.apiKey = 0 ∧ ptr2loa (reads t i (loaKey c)) = 0
  else reads t i c.apiKey = reads s i c.apiKey ∧
    ptr2loa (reads t i (loaKey c)) = ptr2loa (reads s i (loaKey c))

/-- The reference of the context is the last one, and the session ends with it. -/
def Ends (s : SessionSet) (i : SessionId) : Prop :=
  (s.session i).refcount = 1 ∧
    ((s.session i).autoclose = true ∧ (s.session i).closed = false ∨ (s.session i).notinset = true)

instance (s : SessionSet) (i : SessionId) : Decidable (Ends s i) :=
  inferInstanceAs (Decidable (_ ∧ _))

/-- When the disconnection can be whole: the closing of a context that is not validated leaves
the LOA, the end of the session drops all. -/
def Whole (s : SessionSet) (c : Context) (i : SessionId) : Prop :=
  let blank := reads s i c.apiKey = 0
  let low := ptr2loa (reads s i (loaKey c)) = 0
  if c.flags.closing then
    Ends s i ∨ (if c.flags.closed then blank ∧ low else c.flags.validated = true ∨ low)
  else ¬ Ends s i ∨ blank ∧ low

section
variable {s t : SessionSet} {c : Context} {i j : SessionId} {op : Op}

private theorem loaKey_ne (c : Context) : loaKey c ≠ c.apiKey := by
  unfold loaKey
  omega

/-- A reachable set in which the session is referenced. -/
private structure Fine (s : SessionSet) (i : SessionId) : Prop where
  sound : Sound s
  distinct : Distinct s
  owned : 0 < s.owned i

private theorem Fine.step (op : Op) (h : Fine s i) (hstep : step s op = some t)
    (hop : op = .unref i → 1 < s.owned i) : Fine t i :=
  ⟨sound_step h.sound hstep, distinct_step h.sound h.distinct hstep,
    owned_step h.sound hstep h.owned hop⟩

private theorem Fine.newToken (h : Fine s i) (new : Bytes) : Fine (afbSessionNewToken s i new) i :=
  h.step (.newToken i new) (if_pos h.owned) (by simp)

private theorem Fine.cookie (h : Fine s i) (key : Nat) (makecb freecb : Option Nat) (closure : Nat)
    (replace mem : Bool) :
    Fine (afbSessionCookie s i key makecb freecb closure replace mem).2 i :=
  h.step (.cookie i key makecb freecb closure replace mem) (if_pos h.owned) (by simp)

private theorem Fine.alive (h : Fine s i) : ¬ destroyed s i := by
  rw [destroyed_iff h.sound.inv]
  have hr := h.sound.inv.owned i (owned_created h.sound.inv h.owned)
  have ho := h.owned
  omega

private theorem Fine.reads (h : Fine s i) (key : Nat) :
    reads s i key = (afbSessionGetCookie s i key).1 := if_neg h.alive

/-- The part of the record that the end of the session depends on is the same. -/
private structure Alike (x y : Session) : Prop where
  refcount : y.refcount = x.refcount
  autoclose : y.autoclose = x.autoclose
  closed : y.closed = x.closed
  notinset : y.notinset = x.notinset

private theorem Alike.ends {u : SessionSet} (h : Alike (s.session i) (u.session i)) :
    Ends u i ↔ Ends s i := by
  rw [Ends, Ends, h.refcount, h.autoclose, h.closed, h.notinset]

private theorem alike_refl (x : Session) : Alike x x := ⟨rfl, rfl, rfl, rfl⟩

private theorem Alike.trans {x y z : Session} (h : Alike x y) (h' : Alike y z) : Alike x z :=
  ⟨h'.refcount.trans h.refcount, h'.autoclose.trans h.autoclose, h'.closed.trans h.closed,
    h'.notinset.trans h.notinset⟩

private theorem newToken_self (s : SessionSet) (i : SessionId) (new : Bytes) :
    Alike (s.session i) ((afbSessionNewToken s i new).session i) ∧
      ((afbSessionNewToken s i new).session i).cookies = (s.session i).cookies :=
  ⟨⟨update_field s.session i i Session.refcount rfl, update_field s.session i i Session.autoclose rfl,
    update_field s.session i i Session.closed rfl, update_field s.session i i Session.notinset rfl⟩,
    update_field s.session i i Session.cookies rfl⟩

private theorem cookie_alike (s : SessionSet) (i : SessionId) (key : Nat)
    (makecb freecb : Option Nat) (closure : Nat) (replace mem : Bool) :
    Alike (s.session i)
      ((afbSessionCookie s i key makecb freecb closure replace mem).2.session i) :=
  ⟨update_field s.session i i Session.refcount rfl, update_field s.session i i Session.autoclose rfl,
    update_field s.session i i Session.closed rfl, update_field s.session i i Session.notinset rfl⟩

/-- The unref of the context seen from the cookies. -/
theorem unref_cookies (s : SessionSet) (i : SessionId) :
    ((afbSessionUnref s i).session i).cookies =
      if (s.session i).refcount - 1 = 0 ∧ (s.session i).autoclose = true ∧
        (s.session i).closed = false then fun _ => [] else (s.session i).cookies := by
  obtain ⟨v, hv⟩ : ∃ v, v = (s.emit [.unref i]).modify i fun x =>
    { x with refcount := x.refcount - 1 } := ⟨_, rfl⟩
  have hself : v.session i = { s.session i with refcount := (s.session i).refcount - 1 } := by
    rw [hv]
    exact Function.update_self i _ _
  have hclose : ((sessionClose v i).session i).cookies =
      if (s.session i).closed = false then fun _ => [] else (s.session i).cookies := by
    rw [sessionClose_session, Function.update_self, closeRecord, hself]
    cases (s.session i).closed <;> rfl
  unfold afbSessionUnref
  simp only [← hv]
  by_cases hr : (s.session i).refcount - 1 = 0
  · cases hauto : (s.session i).autoclose with
    | true =>
      have : ∀ u : SessionSet, ((if ((sessionClose v i).session i).notinset then
          sessionDestroy (sessionClose v i) i else sessionClose v i).session i).cookies =
            ((sessionClose v i).session i).cookies := fun _ => by split <;> rfl
      simpa [hself, hr, hauto, hclose] using (this v).trans hclose
    | false =>
      simp only [hself, hr, hauto, if_true, Bool.false_eq_true, if_false, false_and, and_false]
      split <;> simp [sessionDestroy, SessionSet.emit, hself]
  · simp [hself, hr]

private theorem getCookie_empty {key : Nat} (h : (s.session i).cookies = fun _ => []) :
    (afbSessionGetCookie s i key).1 = 0 := by
  rw [getCookie_fst, cookieAt, h]
  rfl

private theorem getCookie_congr {u : SessionSet} (h : (u.session i).cookies = (s.session i).cookies)
    (key : Nat) : (afbSessionGetCookie u i key).1 = (afbSessionGetCookie s i key).1 := by
  rw [getCookie_fst, getCookie_fst, cookieAt, cookieAt, h]

private theorem reads_unref (h : Fine s i) (key : Nat) :
    reads (afbSessionUnref s i) i key =
      if Ends s i then 0 else (afbSessionGetCookie s i key).1 := by
  have hstep : step s (.unref i) = some ((afbSessionUnref s i).disown i) := if_pos h.owned
  have hr := h.sound.inv.owned i (owned_created h.sound.inv h.owned)
  have ho := h.owned
  have hdead : destroyed (afbSessionUnref s i) i ↔
      (s.session i).refcount = 1 ∧ (s.session i).notinset = true := by
    refine (destroyed_step h.sound hstep i).trans ?_
    simp [h.alive, Destroys, sweep]
  have hcookies := unref_cookies s i
  unfold reads
  by_cases hd : (s.session i).refcount = 1 ∧ (s.session i).notinset = true
  · have hends : Ends s i := ⟨hd.1, .inr hd.2⟩
    rw [if_pos (hdead.mpr hd), if_pos hends]
  rw [if_neg (fun hx => hd (hdead.mp hx))]
  by_cases he : (s.session i).refcount - 1 = 0 ∧ (s.session i).autoclose = true ∧
      (s.session i).closed = false
  · have hends : Ends s i := ⟨by omega, .inl he.2⟩
    rw [if_pos he] at hcookies
    rw [if_pos hends]
    exact getCookie_empty hcookies
  · have hends : ¬ Ends s i := by
      rintro ⟨hone, hclose | hn⟩
      · exact he ⟨by omega, hclose⟩
      · exact hd ⟨hone, hn⟩
    rw [if_neg he] at hcookies
    rw [if_neg hends]
    exact getCookie_congr hcookies key

/-- The set before the unref of the disconnection: the reference is there, and the cookies of
the api and of the LOA are those of the stages done. -/
private structure Staged (s : SessionSet) (c : Context) (i : SessionId) (u : SessionSet) : Prop where
  fine : Fine u i
  ends : Ends u i ↔ Ends s i
  cookie : (afbSessionGetCookie u i c.apiKey).1 =
    if c.flags.closing ∧ !c.flags.closed then 0 else (afbSessionGetCookie s i c.apiKey).1
  loa : (afbSessionGetCookie u i (loaKey c)).1 =
    if c.flags.closing ∧ !c.flags.closed ∧ c.flags.validated then 0
    else (afbSessionGetCookie s i (loaKey c)).1

private theorem staged_close (h : Fine s i) {c : Context} (hs : c.session = some i)
    (mem mem' : Bool) :
    Fine (closeContext s c mem mem') i ∧
      Alike (s.session i) ((closeContext s c mem mem').session i) ∧
      (afbSessionGetCookie (closeContext s c mem mem') i c.apiKey).1 = 0 ∧
      (afbSessionGetCookie (closeContext s c mem mem') i (loaKey c)).1 =
        if c.flags.validated then 0 else (afbSessionGetCookie s i (loaKey c)).1 := by
  have hset : ∀ u, Fine u i → Alike (s.session i) (u.session i) →
      Fine ((afbSessionSetCookie u i c.apiKey 0 none mem').2) i ∧
      Alike (s.session i) ((afbSessionSetCookie u i c.apiKey 0 none mem').2.session i) ∧
      (afbSessionGetCookie (afbSessionSetCookie u i c.apiKey 0 none mem').2 i c.apiKey).1 = 0 ∧
      (afbSessionGetCookie (afbSessionSetCookie u i c.apiKey 0 none mem').2 i (loaKey c)).1 =
        (afbSessionGetCookie u i (loaKey c)).1 := fun u hu ha =>
    ⟨hu.cookie .., ha.trans (cookie_alike ..), getCookie_setNull hu.distinct ..,
      getCookie_run_other ⟨c.apiKey, none, none, 0, true⟩ u i mem' (loaKey_ne c)⟩
  unfold closeContext afbContextChangeLoa afbContextSet
  simp only [hs, Option.map_some, Option.getD_some]
  cases c.flags.validated with
  | true =>
    obtain ⟨hf, ha, hc, hl⟩ := hset (afbSessionSetCookie s i (loaKey c) 0 none mem).2
      (h.cookie ..) (cookie_alike ..)
    exact ⟨hf, ha, hc, hl.trans (getCookie_setNull h.distinct ..)⟩
  | false => exact hset s h (alike_refl _)

private theorem staged_disconnect (h : Fine s i) (hs : c.session = some i) (new : Bytes)
    (mem mem' : Bool) :
    ∃ u, Staged s c i u ∧ (afbContextDisconnect s c new mem mem').1 = afbSessionUnref u i ∧
      (afbContextDisconnect s c new mem mem').2.session = none := by
  -- the refresh: nothing that the closing reads changes
  obtain ⟨v, d, hv, hsame, hcookies, hd⟩ : ∃ v d, Fine v i ∧
      Alike (s.session i) (v.session i) ∧
      (v.session i).cookies = (s.session i).cookies ∧
      (if c.flags.refreshing ∧ !c.flags.refreshed then
        (afbSessionNewToken s i new, c.setFlags fun f => { f with refreshed := true })
      else (s, c)) = (v, d) := by
    split
    · exact ⟨_, _, h.newToken new, (newToken_self s i new).1, (newToken_self s i new).2, rfl⟩
    · exact ⟨_, _, h, alike_refl _, rfl, rfl⟩
  have hkept : d.session = some i ∧ d.apiKey = c.apiKey ∧ d.flags.validated = c.flags.validated := by
    split at hd <;> cases hd <;> exact ⟨hs, rfl, rfl⟩
  obtain ⟨hds, hdk, hdv⟩ := hkept
  have hdl : loaKey d = loaKey c := by rw [loaKey, loaKey, hdk]
  unfold afbContextDisconnect
  simp only [hs, hd]
  by_cases hclosing : c.flags.closing = true ∧ (!c.flags.closed) = true
  · obtain ⟨hf, ha, hc, hl⟩ := staged_close hv hds mem mem'
    rw [hdk] at hc
    rw [hdl, hdv, getCookie_congr hcookies] at hl
    rw [if_pos hclosing]
    refine ⟨closeContext v d mem mem', ⟨hf, (hsame.trans ha).ends, ?_, ?_⟩, rfl, trivial⟩
    · rw [if_pos hclosing, hc]
    · rw [hl]
      simp [hclosing]
  · rw [if_neg hclosing]
    refine ⟨v, ⟨hv, hsame.ends, ?_, ?_⟩, rfl, trivial⟩
    · rw [if_neg hclosing, getCookie_congr hcookies]
    · rw [if_neg (fun hx => hclosing ⟨hx.1, hx.2.1⟩), getCookie_congr hcookies]

private theorem ptr2loa_zero : ptr2loa 0 = 0 := rfl

private theorem whole_iff (h : Fine s i) (hs : c.session = some i) (new : Bytes)
    (mem mem' : Bool) :
    AllOrNothing s c i (afbContextDisconnect s c new mem mem').1 ↔ Whole s c i := by
  obtain ⟨u, hu, hunref, -⟩ := staged_disconnect h hs new mem mem'
  have hread := fun key => (reads_unref hu.fine key).trans
    (if_congr hu.ends rfl rfl)
  unfold AllOrNothing Whole
  rw [hunref, hread, hread, hu.cookie, hu.loa, h.reads, h.reads]
  by_cases hends : Ends s i
  · cases c.flags.closing <;> simp [hends, ptr2loa_zero, @eq_comm Nat 0]
  · cases c.flags.closing <;> cases c.flags.closed <;> cases c.flags.validated <;>
      simp [hends, ptr2loa_zero]

/-- The context has its reference. -/
private structure Held (r : Request) : Prop where
  sound : Sound r.set
  distinct : Distinct r.set
  owned : ∀ i, r.context.session = some i → 0 < r.set.owned i

private theorem Held.fine {r : Request} (h : Held r) (hs : r.context.session = some i) :
    Fine r.set i := ⟨h.sound, h.distinct, h.owned i hs⟩

private theorem Held.of_fine {r : Request} (hs : r.context.session = some i) (h : Fine r.set i) :
    Held r :=
  ⟨h.sound, h.distinct, fun _ hj => Option.some.inj (hs.symm.trans hj) ▸ h.owned⟩

private theorem Held.of_none {r : Request} (hs : r.context.session = none) (h : Sound r.set)
    (hd : Distinct r.set) : Held r :=
  ⟨h, hd, fun i hi => by
    rw [hs] at hi
    cases hi⟩

private theorem held_start : Held .start := .of_none rfl sound_start distinct_start

private theorem Held.step {r : Request} (h : Held r) (hstep : step r.set op = some t)
    (hop : ∀ i, r.context.session = some i → op = .unref i → 1 < r.set.owned i) :
    Held ⟨t, r.context⟩ :=
  ⟨sound_step h.sound hstep, distinct_step h.sound h.distinct hstep,
    fun i hi => owned_step h.sound hstep (h.owned i hi) (hop i hi)⟩

private theorem initContext_session (s : SessionSet) (i : SessionId) (token : Option Bytes) :
    (initContext s i token).session = some i := by
  cases token with
  | none => rfl
  | some token =>
    rw [initContext]
    split <;> rfl

private theorem own_pos (s : SessionSet) (i : SessionId) : 0 < (s.own i).owned i := by
  simp [SessionSet.own]

private theorem held_connect {r : Request} {uuid token : Option Bytes} {news : List Bytes}
    {mem : Bool} {x : Except Errno Context × SessionSet} (h : Held r)
    (hs : r.context.session = none)
    (hx : afbContextConnect r.set uuid token news mem = some x) :
    Held (match x.1 with
      | .error _ => ⟨x.2, r.context⟩
      | .ok c => ⟨given (c.session, x.2), c⟩) := by
  obtain ⟨⟨e, t⟩, ht, rfl⟩ := Option.map_eq_some_iff.mp hx
  have hstep : step r.set (.get uuid AFB_SESSION_TIMEOUT_DEFAULT news mem) =
      some (given (e.toOption, t)) := by
    rw [step, ht]
    rfl
  have hsound := sound_step h.sound hstep
  have hdistinct := distinct_step h.sound h.distinct hstep
  cases e with
  | error e => exact .of_none hs hsound hdistinct
  | ok i =>
    have hc : ((initContext t i token).setFlags fun f =>
        { f with created := getCreates r.set uuid }).session = some i := initContext_session t i token
    dsimp only
    rw [hc]
    exact .of_fine hc ⟨hsound, hdistinct, own_pos t i⟩

private theorem held_step {r r' : Request} {op : ContextOp} (h : Held r)
    (hstep : contextStep r op = some r') : Held r' := by
  cases op with
  | session op =>
    obtain ⟨hop, hstep⟩ := Option.ite_none_right_eq_some.mp hstep
    obtain ⟨t, ht, rfl⟩ := Option.map_eq_some_iff.mp hstep
    refine h.step ht fun i hi hunref => ?_
    subst hunref
    simpa [spares, hi] using hop
  | init i token =>
    obtain ⟨⟨-, ho⟩, rfl⟩ := Option.ite_some_none_eq_some.mp hstep
    have hadd : step r.set (.addref i) = some ((afbSessionAddref r.set i).own i) := if_pos ho
    exact .of_fine (initContext_session _ i token) ⟨sound_step h.sound hadd,
      distinct_step h.sound h.distinct hadd, own_pos _ i⟩
  | connect uuid token news mem =>
    obtain ⟨hs, hstep⟩ := Option.ite_none_right_eq_some.mp hstep
    obtain ⟨x, hx, rfl⟩ := Option.map_eq_some_iff.mp hstep
    exact held_connect h hs hx
  | flags f =>
    cases hstep
    exact ⟨h.sound, h.distinct, h.owned⟩
  | apiKey key =>
    cases hstep
    exact ⟨h.sound, h.distinct, h.owned⟩
  | close =>
    cases hstep
    exact ⟨h.sound, h.distinct, h.owned⟩
  | make replace makecb freecb closure mem =>
    obtain ⟨x, hx, rfl⟩ := Option.map_eq_some_iff.mp hstep
    obtain ⟨i, hi, rfl⟩ := Option.map_eq_some_iff.mp hx
    exact .of_fine hi ((h.fine hi).cookie ..)
  | set value freecb mem =>
    obtain ⟨x, hx, rfl⟩ := Option.map_eq_some_iff.mp hstep
    obtain ⟨i, hi, rfl⟩ := Option.map_eq_some_iff.mp hx
    exact .of_fine hi ((h.fine hi).cookie ..)
  | refresh new =>
    obtain ⟨x, hx, rfl⟩ := Option.map_eq_some_iff.mp hstep
    obtain ⟨-, hx⟩ := Option.ite_none_right_eq_some.mp hx
    split at hx
    · cases hx
      exact ⟨h.sound, h.distinct, h.owned⟩
    · obtain ⟨i, hi, rfl⟩ := Option.map_eq_some_iff.mp hx
      exact .of_fine hi ((h.fine hi).newToken new)
  | changeLoa loa mem =>
    obtain ⟨x, hx, rfl⟩ := Option.map_eq_some_iff.mp hstep
    rw [afbContextChangeLoa] at hx
    split at hx
    · cases hx
      exact h
    · obtain ⟨i, hi, rfl⟩ := Option.map_eq_some_iff.mp hx
      exact .of_fine hi ((h.fine hi).cookie ..)
  | sentToken new =>
    cases hstep
    cases hs : r.context.session with
    | none =>
      rw [afbContextSentToken, hs]
      exact ⟨h.sound, h.distinct, h.owned⟩
    | some i =>
      rw [afbContextSentToken, hs]
      dsimp only
      split
      · exact ⟨h.sound, h.distinct, h.owned⟩
      split
      · exact ⟨h.sound, h.distinct, h.owned⟩
      · exact .of_fine hs ((h.fine hs).newToken new)
  | disconnect new mem mem' =>
    cases hstep
    cases hs : r.context.session with
    | none =>
      rw [afbContextDisconnect, hs]
      exact ⟨h.sound, h.distinct, h.owned⟩
    | some i =>
      obtain ⟨u, hu, ht, hnone⟩ := staged_disconnect (h.fine hs) hs new mem mem'
      have hunref : Sessions.step u (.unref i) = some ((afbSessionUnref u i).disown i) :=
        if_pos hu.fine.owned
      refine .of_none hnone ?_ ?_
      · rw [ht]
        exact sound_step hu.fine.sound hunref
      · rw [ht]
        exact distinct_step hu.fine.sound hu.fine.distinct hunref

end

/-- After any sequence of calls on the context and on the sessions, the disconnection closes
whole or not at all exactly when the validation, the LOA and the end of the session allow it. -/
theorem disconnect_whole_iff (ops : List ContextOp) (r : Request) (i : SessionId) (new : Bytes)
    (mem mem' : Bool) (h : exec contextStep .start ops = some r)
    (hs : r.context.session = some i) :
    AllOrNothing r.set r.context i (afbContextDisconnect r.set r.context new mem mem').1 ↔
      Whole r.set r.context i :=
  whole_iff ((exec_keeps (fun _ _ _ => held_step) held_start h).fine hs) hs new mem mem'

/-- A request with the right token that closes what it stored. -/
def closingOps : List ContextOp :=
  [.session (.init 5 60 (some [49]) []), .connect (some [97]) (some [49]) [] true, .apiKey 4096,
    .changeLoa 3 true, .set 7 none true, .refresh [50], .close]

theorem disconnect_whole_iff_sample :
    ∃ r, exec contextStep .start closingOps = some r ∧ r.context.session = some 0 ∧
      (afbSessionGetCookie r.set 0 4096).1 = 7 ∧ r.context.flags.closing = true ∧
      AllOrNothing r.set r.context 0
        (afbContextDisconnect r.set r.context [51] true true).1 :=
  ⟨_, rfl, rfl, rfl, rfl,
    (disconnect_whole_iff closingOps _ 0 [51] true true rfl rfl).mpr (.inr (.inl rfl))⟩

/-- A request with the right token raises the LOA and stores a cookie, a second one with a wrong
token is refused and closes its context. -/
def refusedOps : List ContextOp :=
  [.session (.init 5 60 (some [49]) []), .connect (some [97]) (some [49]) [] true, .apiKey 4096,
    .changeLoa 3 true, .set 7 none true, .disconnect [50] true true,
    .connect (some [97]) (some [48]) [] true, .apiKey 4096, .close]

theorem refused_request_half_closed :
    ∃ r, exec contextStep .start refusedOps = some r ∧ r.context.session = some 0 ∧
      r.context.flags.invalidated = true ∧ r.context.flags.closing = true ∧
      (afbSessionGetCookie (afbContextDisconnect r.set r.context [51] true true).1 0 4096).1 = 0 ∧
      (afbSessionGetCookie (afbContextDisconnect r.set r.context [51] true true).1 0 4097).1 = 3 ∧
      ¬ AllOrNothing r.set r.context 0
        (afbContextDisconnect r.set r.context [51] true true).1 := by
  refine ⟨_, rfl, rfl, rfl, rfl, rfl, rfl, fun h => ?_⟩
  have hloa : ptr2loa 3 = 0 := h.2
  revert hloa
  decide

end AfbBinder.Contexts
