import AfbBinder.Request.ReplyOnce

/-! The references of a request called through a client stub: client_api_call_cb runs in the
job process_async, while the reply of the server, or the hangup, is given to the request
by client_on_reply_cb in another thread. The reference of the call is taken after the
message is sent. -/
namespace AfbBinder.Stub.CallRefs
open Lib.Runs Request
variable {J : Type}

/-- Where the job of the request is: in client_api_call_cb up to returned, then at its own
release of the request. -/
inductive Caller where
  | getProto
  | disconnected
  | calling
  | registered
  | sent
  | refused
  | returned
  | done
  deriving DecidableEq, Repr

/-- Where the call of client_on_reply_cb is, for the call that was found. -/
inductive Answer where
  | idle
  | found
  | replied
  | released
  deriving DecidableEq, Repr

/-- taken tells that client_api_call_cb took its reference. -/
structure State (J : Type) where
  xreq : Xreq J
  caller : Caller
  answer : Answer
  taken : Bool

/-- The request as process_async gives it to the api: the job has the reference. -/
def State.start (callers : List (Option Group)) (api verb : String) (hookflags : Bool) : State J :=
  ⟨initHooking (afbXreqInit callers api verb) hookflags, .getProto, .idle, false⟩

inductive Action (J : Type) where
  | getProto (proto : Bool)
  | register (mem : Bool)
  | send (ok : Bool)
  | finish
  | unref
  | find
  | reply (r : Reply J)
  | release

/-- The operations of the two threads. The call can be found by the hangup once it is
registered, which closes the websocket first, and by the reply once it is sent. -/
def step (s : State J) : Action J → Option (State J)
  | .getProto proto =>
    if s.caller = .getProto then
      some { s with caller := if proto then .calling else .disconnected }
    else none
  | .register mem =>
    if s.caller = .calling then
      some { s with caller := if mem then .registered else .refused }
    else none
  | .send ok =>
    if s.caller = .registered then
      some { s with caller := if ok ∧ s.answer = .idle then .sent else .refused }
    else none
  | .finish =>
    match s.caller with
    | .sent => some { s with xreq := afbXreqUnhookedAddref s.xreq, caller := .returned, taken := true }
    | .refused => some { s with
        xreq := afbXreqReply s.xreq ⟨none, some "internal", some "can't send message"⟩
        caller := .returned }
    | .disconnected => some { s with
        xreq := afbXreqReply s.xreq ⟨none, some "disconnected", some "server hung up"⟩
        caller := .returned }
    | _ => none
  | .unref =>
    if s.caller = .returned then
      some { s with xreq := afbXreqUnhookedUnref s.xreq, caller := .done }
    else none
  | .find =>
    if s.answer = .idle ∧ (s.caller = .registered ∨ s.caller = .sent ∨ s.taken = true) then
      some { s with answer := .found }
    else none
  | .reply r =>
    if s.answer = .found then some { s with xreq := afbXreqReply s.xreq r, answer := .replied }
    else none
  | .release =>
    if s.answer = .replied then
      some { s with xreq := afbXreqUnhookedUnref s.xreq, answer := .released }
    else none

/-- client_api_call_cb has still to access the request. -/
def Caller.accesses : Caller → Bool
  | .returned | .done => false
  | _ => true

/-- The job and the reply, when one is due, have released the request. -/
def Released (s : State J) : Prop := s.caller = .done ∧ (s.taken = true → s.answer = .released)

instance (s : State J) : Decidable (Released s) := inferInstanceAs (Decidable (_ ∧ _))

/-- The count is not 0 while client_api_call_cb accesses the request; it is 0, and the
request was finalised once, when both have released it. -/
structure Counted (s : State J) : Prop where
  accessed : s.caller.accesses = true → s.xreq.refcount ≠ 0
  zero : s.xreq.refcount = 0 ↔ Released s
  once : (answers s.xreq.events).count .unref = if Released s then 1 else 0

/-- The reply releases the request after the call has taken its reference. -/
def TakenFirst (s : State J) : Action J → Prop
  | .release => s.answer = .replied → s.taken = true
  | _ => True

/-- The references are the one of the job and the one that the reply has to release. -/
structure Inv (s : State J) : Prop where
  count : s.xreq.refcount =
    (if s.caller = .done then 0 else 1) + if s.taken = true ∧ s.answer ≠ .released then 1 else 0
  taken : s.taken = true → s.caller = .returned ∨ s.caller = .done
  released : s.answer = .released → s.taken = true
  answers : answers s.xreq.events = due s.xreq.refcount s.xreq.replied
  replied : s.xreq.refcount = 0 → s.xreq.replied = true

section
variable {s t : State J}

private theorem Inv.zero (hi : Inv s) : s.xreq.refcount = 0 ↔ Released s := by
  rw [hi.count, Released]
  by_cases hd : s.caller = .done <;> by_cases ht : s.taken = true <;>
    by_cases hr : s.answer = .released <;> simp [hd, ht, hr]

private theorem Inv.counted (hi : Inv s) : Counted s where
  accessed h hz := by
    obtain ⟨hd, -⟩ := hi.zero.mp hz
    rw [hd] at h
    cases h
  zero := hi.zero
  once := by
    rw [hi.answers, due]
    by_cases hz : s.xreq.refcount = 0
    · rw [if_pos hz, if_pos (hi.zero.mp hz)]
      rfl
    · rw [if_neg hz, if_neg fun h => hz (hi.zero.mpr h)]
      split <;> rfl

/-- A reply leaves the count alone, also once the request is finalised. -/
theorem reply_keeps {x : Xreq J} (ha : answers x.events = due x.refcount x.replied)
    (hz : x.refcount = 0 → x.replied = true) (r : Reply J) :
    (afbXreqReply x r).refcount = x.refcount ∧
      answers (afbXreqReply x r).events = due (afbXreqReply x r).refcount (afbXreqReply x r).replied ∧
      (afbXreqReply x r).replied = true := by
  by_cases hc : x.refcount = 0
  · have hr := hz hc
    unfold afbXreqReply xreqHookedReplyCb
    split
    · have hcb : xreqReplyCb (x.emit (.hookReply r)) r = x.emit (.hookReply r) := if_pos hr
      rw [hcb]
      refine ⟨rfl, ?_, hr⟩
      have hsame : answers (x.emit (.hookReply r)).events = answers x.events := by
        simp [answers, Xreq.emit, List.filterMap_append, List.filterMap_cons, Event.answer]
      exact hsame.trans ha
    · rw [xreqReplyCb, if_pos hr]
      exact ⟨rfl, ha, hr⟩
  · have halive : Alive x := by rwa [due, if_neg hc] at ha
    obtain ⟨halive, hcount, hr⟩ := alive_reply halive r
    exact ⟨hcount, halive.due (by rwa [hcount]), hr⟩

private theorem reply_refcount (x : Xreq J) (r : Reply J) :
    (afbXreqReply x r).refcount = x.refcount := by
  unfold afbXreqReply xreqHookedReplyCb xreqReplyCb
  split <;> split <;> rfl

private theorem unref_refcount (x : Xreq J) :
    (afbXreqUnhookedUnref x).refcount = x.refcount - 1 := by
  unfold afbXreqUnhookedUnref
  dsimp only
  split
  · obtain ⟨y, hy⟩ : ∃ y : Xreq J, y = { x with refcount := x.refcount - 1 } := ⟨_, rfl⟩
    have hcount : (if y.replied then y
        else afbXreqReply y ⟨none, some "error", some "no reply"⟩).refcount = x.refcount - 1 := by
      rw [hy]
      split
      · rfl
      · exact reply_refcount _ _
    rw [← hy]
    unfold xreqFinalize
    generalize (if y.replied then y else afbXreqReply y ⟨none, some "error", some "no reply"⟩) = z
      at hcount ⊢
    dsimp only
    split <;> split <;> exact hcount
  · rfl

private theorem unref_keeps {x : Xreq J} (ha : answers x.events = due x.refcount x.replied)
    (hc : x.refcount ≠ 0) :
    (afbXreqUnhookedUnref x).refcount = x.refcount - 1 ∧
      answers (afbXreqUnhookedUnref x).events =
        due (afbXreqUnhookedUnref x).refcount (afbXreqUnhookedUnref x).replied ∧
      ((afbXreqUnhookedUnref x).refcount = 0 → (afbXreqUnhookedUnref x).replied = true) := by
  have halive : Alive x := by rwa [due, if_neg hc] at ha
  obtain ⟨hcount, hans, hr⟩ := unref_answers halive
  exact ⟨hcount, hcount ▸ hans, hr⟩

/-- The caller goes on without touching the request. -/
theorem Inv.moves (hi : Inv s) (caller : Caller) (hs : s.caller.accesses = true)
    (hc : caller ≠ .done) : Inv { s with caller } := by
  have htaken : s.taken = false := by
    refine Bool.eq_false_iff.mpr fun ht => ?_
    rcases hi.taken ht with h | h <;> rw [h] at hs <;> cases hs
  have hdone : s.caller ≠ .done := by
    intro h
    rw [h] at hs
    cases hs
  have hcount := hi.count
  refine { hi with count := ?_, taken := fun ht => ?_ }
  · simpa [hdone, hc, htaken] using hcount
  · rw [htaken] at ht
    cases ht

private theorem Inv.replies (hi : Inv s) (hs : s.caller.accesses = true) (r : Reply J) :
    Inv { s with xreq := afbXreqReply s.xreq r, caller := .returned } := by
  obtain ⟨hcount, hans, hr⟩ := reply_keeps hi.answers hi.replied r
  have hm := hi.moves .returned hs (by decide)
  exact { hm with count := hcount.trans hm.count, answers := hans, replied := fun _ => hr }

private theorem inv_step (hi : Inv s) (x : Action J) (hx : TakenFirst s x)
    (h : step s x = some t) : Inv t := by
  cases x with
  | getProto proto =>
    obtain ⟨hc, h⟩ := Option.ite_none_right_eq_some.mp h
    cases h
    exact hi.moves _ (by rw [hc]; rfl) (by split <;> decide)
  | register mem =>
    obtain ⟨hc, h⟩ := Option.ite_none_right_eq_some.mp h
    cases h
    exact hi.moves _ (by rw [hc]; rfl) (by split <;> decide)
  | send ok =>
    obtain ⟨hc, h⟩ := Option.ite_none_right_eq_some.mp h
    cases h
    exact hi.moves _ (by rw [hc]; rfl) (by split <;> decide)
  | finish =>
    simp only [step] at h
    split at h
    · rename_i hc
      cases h
      have htaken : s.taken = false := by
        refine Bool.eq_false_iff.mpr fun ht => ?_
        rcases hi.taken ht with h | h <;> rw [h] at hc <;> cases hc
      have hreleased : s.answer ≠ .released := by
        intro hr
        rw [hi.released hr] at htaken
        cases htaken
      have hcount : s.xreq.refcount = 1 := by simpa [hc, htaken] using hi.count
      have hans := hi.answers
      refine ⟨?_, fun _ => .inl rfl, fun _ => rfl, ?_, fun hz => ?_⟩
      · simp [afbXreqUnhookedAddref, hcount, hreleased]
      · simpa [afbXreqUnhookedAddref, hcount, due] using hans
      · simp [afbXreqUnhookedAddref, hcount] at hz
    · rename_i hc
      cases h
      exact hi.replies (by rw [hc]; rfl) _
    · rename_i hc
      cases h
      exact hi.replies (by rw [hc]; rfl) _
    · cases h
  | unref =>
    obtain ⟨hc, h⟩ := Option.ite_none_right_eq_some.mp h
    cases h
    have hcount := hi.count
    rw [hc] at hcount
    have hne : s.xreq.refcount ≠ 0 := by
      rw [hcount]
      by_cases hw : s.taken = true ∧ s.answer ≠ .released <;> simp [hw]
    obtain ⟨hsub, hans, hz⟩ := unref_keeps hi.answers hne
    refine ⟨?_, fun _ => .inr rfl, hi.released, hans, hz⟩
    rw [hsub, hcount]
    by_cases hw : s.taken = true ∧ s.answer ≠ .released <;> simp [hw]
  | find =>
    obtain ⟨hc, h⟩ := Option.ite_none_right_eq_some.mp h
    cases h
    refine { hi with count := ?_, released := fun hr => by cases hr }
    have hcount := hi.count
    simpa [hc.1] using hcount
  | reply r =>
    obtain ⟨hc, h⟩ := Option.ite_none_right_eq_some.mp h
    cases h
    obtain ⟨hsame, hans, hr⟩ := reply_keeps hi.answers hi.replied r
    have hcount := hi.count
    rw [hc] at hcount
    refine ⟨?_, hi.taken, (fun h => by cases h), hans, fun _ => hr⟩
    simpa using hsame.trans hcount
  | release =>
    obtain ⟨hc, h⟩ := Option.ite_none_right_eq_some.mp h
    cases h
    have htaken := hx hc
    have hcount := hi.count
    rw [hc, htaken] at hcount
    have hne : s.xreq.refcount ≠ 0 := by
      rw [hcount]
      split <;> decide
    obtain ⟨hsub, hans, hz⟩ := unref_keeps hi.answers hne
    refine ⟨?_, hi.taken, fun _ => htaken, hans, hz⟩
    rw [hsub, hcount]
    simp

private theorem early_release (hi : Inv s) (hr : s.answer = .replied) (ht : s.taken = false) :
    ∃ t, step s .release = some t ∧ ¬ Counted t := by
  refine ⟨_, if_pos hr, fun hc => ?_⟩
  have hcount := hi.count
  have hzero := hc.zero
  simp only [Released, unref_refcount, ht] at hzero
  by_cases hd : s.caller = .done
  · simp [hcount, hd, ht] at hzero
  · simp [hcount, hd, ht] at hzero

end

private theorem inv_begin (callers : List (Option Group)) (api verb : String) (hookflags : Bool) :
    Inv (State.start callers api verb hookflags : State J) := by
  have halive : Alive (afbXreqInit callers api verb : Xreq J) := rfl
  obtain ⟨hans, hcount⟩ := alive_initHooking halive hookflags
  have hone : (State.start callers api verb hookflags : State J).xreq.refcount = 1 := hcount
  refine ⟨hone.trans rfl, (fun h => by cases h), (fun h => by cases h), ?_, fun hz => ?_⟩
  · exact hans.due (by rw [hcount]; exact Int.one_ne_zero)
  · rw [hone] at hz
    cases hz

/-- In every interleaving the count is right in each state gone through exactly when the
reply never releases the request before client_api_call_cb has taken its reference. -/
theorem references_counted_iff (callers : List (Option Group)) (api verb : String)
    (hookflags : Bool) (acts : List (Action J)) :
    Always step Counted (State.start callers api verb hookflags) acts ↔
      Along step TakenFirst (State.start callers api verb hookflags) acts := by
  refine always_iff_along (I := Inv) (fun _ hi => hi.counted)
    (fun s x t hi hx h => inv_step hi x hx h) (fun s x hi hx => ?_)
    (inv_begin callers api verb hookflags) acts
  cases x with
  | release =>
    obtain ⟨hr, ht⟩ := Classical.not_imp.mp hx
    exact early_release hi hr (Bool.eq_false_iff.mpr ht)
  | _ => exact absurd trivial hx

/-- The reply is processed between the sending and the taking of the reference: the request
is finalised while client_api_call_cb has still to access it. -/
theorem replied_before_taken :
    ∃ s, exec step (State.start [] "api" "verb" false : State Nat)
        [.getProto true, .register true, .send true, .find, .reply ⟨some 1, none, none⟩, .release] =
          some s ∧
      s.caller = .sent ∧ s.xreq.refcount = 0 ∧ Request.Event.unref ∈ s.xreq.events ∧ ¬ Counted s := by
  refine ⟨_, rfl, rfl, rfl, by decide, fun hc => ?_⟩
  exact hc.accessed rfl rfl

end AfbBinder.Stub.CallRefs
