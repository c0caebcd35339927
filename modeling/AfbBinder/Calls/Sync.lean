import AfbBinder.Request.Model

/-! The synchronous calls: the reply that is stored through the pointers of the caller, and the
internal error that takes its place. -/
namespace AfbBinder.Calls
open AfbBinder.Request (Reply)

def internalError : String := "internal-error"

/-- The two texts of the caller, that the pointers of type char ** point at. -/
inductive TextPtr where
  | error
  | info
  deriving DecidableEq, Repr

/-- What the caller has at the pointers that it gives. -/
structure Results (J : Type) where
  object : Option J
  texts : TextPtr → Option String

variable {J : Type}

def Results.setText (out : Results J) (ptr : TextPtr) (text : Option String) : Results J :=
  { out with texts := fun p => if p = ptr then text else out.texts p }

/-- The pointers are none for NULL, and so is what strdup gives when the memory lacks. -/
def storeReply (strdup : String → Option String) (iobject : Option J) (ierror iinfo : Option String)
    (sobject : Bool) (serror sinfo : Option TextPtr) (out : Results J) : Results J × Int :=
  let copy := ierror.bind strdup
  let lost := serror.isSome ∧ ierror.isSome ∧ copy = none
  let out := serror.elim out fun ptr => out.setText ptr copy
  let out := if sobject then { out with object := if lost then none else iobject } else out
  let out := sinfo.elim out fun ptr => out.setText ptr (if lost then none else iinfo.bind strdup)
  (out, if ierror.isSome then -1 else 0)

/-- The record of a synchronous call, not legacy, with the memory of its caller. -/
structure Callreq (J : Type) where
  replied : Bool
  jobloop : Option Nat
  returned : Bool
  status : Int
  out : Results J
  left : List Nat

def syncLeave (c : Callreq J) : Callreq J :=
  { c with jobloop := none, left := c.left ++ c.jobloop.toList }

section
variable (strdup : String → Option String)

def callreqReplyCb (c : Callreq J) (r : Reply J) : Callreq J :=
  let stored := storeReply strdup r.obj r.error r.info true (some .error) (some .info) c.out
  syncLeave { c with returned := true, out := stored.1, status := stored.2 }

/-- A request is replied once. -/
def reply (c : Callreq J) (r : Reply J) : Callreq J :=
  if c.replied then c else callreqReplyCb strdup { c with replied := true } r

/-- How jobs_enter goes: sync_enter may be called, with a signal or not, replies may come before it
returns, and it returns rc. -/
structure Entering (J : Type) where
  called : Option Int
  jobloop : Nat
  replies : List (Reply J)
  rc : Int

/-- The processing of the request brings the replies, from any thread. -/
def syncEnter (signum : Int) (e : Entering J) (c : Callreq J) : Callreq J :=
  if signum = 0 then e.replies.foldl (reply strdup) { c with jobloop := some e.jobloop }
  else e.replies.foldl (reply strdup) (reply strdup c ⟨none, some internalError, none⟩)

def jobsEnter (e : Entering J) (c : Callreq J) : Callreq J :=
  match e.called with
  | none => c
  | some signum => syncEnter strdup signum e c

/-- A request that ends without a reply is replied so. -/
def finalize (c : Callreq J) : Callreq J := reply strdup c ⟨none, some "error", some "no reply"⟩

/-- How the call goes: created tells whether the record is allocated, last whether the reference of
do_sync is the last one. -/
structure Ending (J : Type) where
  created : Bool
  entering : Entering J
  last : Bool

/-- The internal error, its two texts being given the one for the other. -/
def interr (out : Results J) : Results J × Int :=
  storeReply strdup none (some internalError) none true (some .info) (some .error) out

def doSync (e : Ending J) (out : Results J) : Results J × Int :=
  if e.created then
    let c := jobsEnter strdup e.entering ⟨false, none, false, 0, out, []⟩
    if 0 ≤ e.entering.rc ∧ c.returned then (c.out, c.status)
    else interr strdup (if e.last then finalize strdup c else c).out
  else interr strdup out

end

/-- The reply that the call gets: the first one, that of sync_enter on a signal. -/
def Ending.reply? (e : Ending J) : Option (Reply J) :=
  if e.created then
    match e.entering.called with
    | none => none
    | some signum =>
      if signum = 0 then e.entering.replies.head? else some ⟨none, some internalError, none⟩
  else none

/-- What do_sync gives back is its reply. -/
structure Reported (e : Ending J) (out : Results J) (rc : Int) : Prop where
  error : rc < 0 ↔ out.texts .error ≠ none
  info : out.texts .info = e.reply?.bind Reply.info
  object : out.object = e.reply?.bind Reply.obj

section
variable {c : Callreq J} {r : Reply J} {out : Results J} {e : Ending J}

/-- The copies succeeding, a reply is stored as it is. -/
structure Stored (r : Reply J) (out : Results J) (status : Int) : Prop where
  error : out.texts .error = r.error
  info : out.texts .info = r.info
  object : out.object = r.obj
  status : status = if r.error.isSome then -1 else 0

private theorem storeReply_stored (r : Reply J) (out : Results J) :
    Stored r (storeReply some r.obj r.error r.info true (some .error) (some .info) out).1
      (storeReply some r.obj r.error r.info true (some .error) (some .info) out).2 := by
  obtain ⟨obj, error, info⟩ := r
  cases error with
  | none => exact ⟨rfl, Option.bind_fun_some info, rfl, rfl⟩
  | some error => exact ⟨rfl, Option.bind_fun_some info, rfl, rfl⟩

private theorem interr_wrong (out : Results J) :
    (interr some out).2 < 0 ∧ (interr some out).1.texts .error = none :=
  ⟨(by decide : (-1 : Int) < 0), rfl⟩

private theorem reply_replied (h : c.replied = true) (r : Reply J) : reply some c r = c := by
  rw [reply, if_pos h]

private theorem replies_replied (h : c.replied = true) (replies : List (Reply J)) :
    replies.foldl (reply some) c = c := by
  induction replies with
  | nil => rfl
  | cons r replies ih => rw [List.foldl_cons, reply_replied h, ih]

/-- The record once the call is replied. -/
structure Answered (r : Reply J) (c : Callreq J) : Prop where
  replied : c.replied = true
  returned : c.returned = true
  stored : Stored r c.out c.status

private theorem reply_answered (h : c.replied = false) (r : Reply J) : Answered r (reply some c r) := by
  rw [reply, if_neg (by rw [h]; decide)]
  exact ⟨rfl, rfl, storeReply_stored r c.out⟩

private theorem replies_answered (h : c.replied = false) (r : Reply J) (replies : List (Reply J)) :
    Answered r ((r :: replies).foldl (reply some) c) := by
  have hfirst := reply_answered h r
  rw [List.foldl_cons, replies_replied hfirst.replied]
  exact hfirst

private theorem Stored.reported {status : Int} (h : Stored r out status) (he : e.reply? = some r) :
    Reported e out status := by
  refine ⟨?_, by rw [h.info, he]; rfl, by rw [h.object, he]; rfl⟩
  rw [h.status, h.error]
  cases r.error with
  | none => exact ⟨fun hneg => absurd hneg (Int.lt_irrefl 0), fun hne => absurd rfl hne⟩
  | some error => exact ⟨fun _ => Option.some_ne_none error, fun _ => (by decide : (-1 : Int) < 0)⟩

/-- What jobs_enter leaves: the reply stored, or the record as it was. -/
theorem jobsEnter_cases (e : Entering J) (h : c.replied = false) (hc : c.returned = false) :
    match (⟨true, e, false⟩ : Ending J).reply? with
    | some r => Answered r (jobsEnter some e c)
    | none => (jobsEnter some e c).returned = false := by
  unfold Ending.reply? jobsEnter
  dsimp only
  rw [if_pos rfl]
  cases e.called with
  | none => exact hc
  | some signum =>
    dsimp only
    unfold syncEnter
    by_cases hsignum : signum = 0
    · rw [if_pos hsignum, if_pos hsignum]
      cases e.replies with
      | nil => exact hc
      | cons r replies =>
        have hentered : ({ c with jobloop := some e.jobloop } : Callreq J).replied = false := h
        exact replies_answered hentered r replies
    · have hsignal := reply_answered h ⟨none, some internalError, none⟩
      rw [if_neg hsignum, if_neg hsignum, replies_replied hsignal.replied]
      exact hsignal

private theorem interr_unreported (out : Results J) : ¬Reported e (interr some out).1 (interr some out).2 :=
  fun h => h.error.mp (interr_wrong out).1 (interr_wrong out).2

end

/-- The result of do_sync is the one of the reply exactly when the record was allocated, and the
reply came before jobs_enter returned without an error. -/
theorem doSync_reported_iff (e : Ending J) (out : Results J) :
    Reported e (doSync some e out).1 (doSync some e out).2 ↔
      e.created = true ∧ 0 ≤ e.entering.rc ∧ e.reply?.isSome = true := by
  obtain ⟨created, entering, last⟩ := e
  cases created with
  | false => exact ⟨fun h => absurd h (interr_unreported out), fun h => absurd h.1 Bool.false_ne_true⟩
  | true =>
    have hcases := jobsEnter_cases (c := ⟨false, none, false, 0, out, []⟩) entering rfl rfl
    have hreply : (⟨true, entering, last⟩ : Ending J).reply? =
        (⟨true, entering, false⟩ : Ending J).reply? := rfl
    rw [doSync, if_pos rfl, hreply]
    dsimp only
    cases he : (⟨true, entering, false⟩ : Ending J).reply? with
    | none =>
      rw [he] at hcases
      dsimp only at hcases
      rw [if_neg fun hok => absurd (hcases.symm.trans hok.2) Bool.false_ne_true]
      exact ⟨fun h => absurd h (interr_unreported _), fun h => absurd h.2.2 Bool.false_ne_true⟩
    | some r =>
      rw [he] at hcases
      dsimp only at hcases
      by_cases hrc : 0 ≤ entering.rc
      · rw [if_pos ⟨hrc, hcases.returned⟩]
        exact ⟨fun _ => ⟨rfl, hrc, rfl⟩, fun _ => hcases.stored.reported (hreply.trans he)⟩
      · rw [if_neg fun hok => hrc hok.1]
        exact ⟨fun h => absurd h (interr_unreported _), fun h => absurd h.2.1 hrc⟩

/-- Without a record, the text of the error is put at the pointer of the info. -/
theorem doSync_unallocated :
    let out := doSync some (⟨false, ⟨none, 0, [], 0⟩, true⟩ : Ending String) ⟨none, fun _ => none⟩
    (out.2 = -1 ∧ out.1.texts .error = none ∧ out.1.texts .info = some internalError) ∧
      ¬Reported (⟨false, ⟨none, 0, [], 0⟩, true⟩ : Ending String) out.1 out.2 :=
  ⟨⟨rfl, rfl, rfl⟩, fun h => h.error.mp (by decide : (-1 : Int) < 0) rfl⟩

end AfbBinder.Calls
