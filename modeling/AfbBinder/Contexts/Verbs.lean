import AfbBinder.Request.Model
import AfbBinder.Contexts.Model

/-! The check that stands before the callback of a verb: its session flags, in the two
versions, and its authorisation tree. -/
namespace AfbBinder.Contexts
open Lib.Cstrings Sessions
open AfbBinder.Request (Xreq Reply Event afbXreqReply xreqReplyCb xreqHookedReplyCb)

variable {J : Type}

def AFB_SESSION_CLOSE_X1 : BitVec 32 := 2
def AFB_SESSION_RENEW_X1 : BitVec 32 := 4
def AFB_SESSION_CHECK_X1 : BitVec 32 := 8
def AFB_SESSION_LOA_GE_X1 : BitVec 32 := 16
def AFB_SESSION_LOA_LE_X1 : BitVec 32 := 32
def AFB_SESSION_LOA_EQ_X1 : BitVec 32 := 48
def AFB_SESSION_LOA_SHIFT_X1 : Nat := 6
def AFB_SESSION_LOA_MASK_X1 : BitVec 32 := 7

def AFB_SESSION_LOA_MASK_X2 : BitVec 32 := 3
def AFB_SESSION_REFRESH_X2 : BitVec 32 := 8
def AFB_SESSION_CLOSE_X2 : BitVec 32 := 16

/-- An authorisation entry; no stands for the unknown types too. -/
inductive Auth where
  | no
  | token
  | loa (loa : Nat)
  | permission (text : String)
  | or (first next : Auth)
  | and (first next : Auth)
  | not (first : Auth)
  | yes
  deriving DecidableEq, Repr

/-- The request at its verb, with the set and its context. -/
structure Gate (J : Type) where
  xreq : Xreq J
  set : SessionSet
  context : Context

/-- What a call of a verb comes to: the callback is called with the request, or it is not. -/
inductive Outcome (J : Type) where
  | called (g : Gate J)
  | answered (g : Gate J)

structure VerbDescV1 where
  session : BitVec 32

/-- The verbs of versions 2 and 3. -/
structure Verb where
  session : BitVec 32
  auth : Option Auth

/-- mem tells whether vasprintf succeeds. -/
def Gate.replyF (g : Gate J) (error info : String) (mem : Bool) : Gate J :=
  { g with xreq := afbXreqReply g.xreq ⟨none, some error, if mem then some info else none⟩ }

def afbXreqReplyUnknownVerb (g : Gate J) (mem : Bool) : Gate J :=
  g.replyF "unknown-verb"
    ("verb " ++ g.xreq.calledVerb ++ " unknown within api " ++ g.xreq.calledApi) mem

/-- hasPermission is what the backend of permissions answers for the request. -/
def afbAuthCheck (g : Gate J) (hasPermission : String → Bool) : Auth → Option Bool
  | .no => some false
  | .token => some (afbContextCheck g.context)
  | .loa loa => afbContextCheckLoa g.set g.context loa
  | .permission text => some (hasPermission text)
  | .or first next =>
    (afbAuthCheck g hasPermission first).bind fun r =>
      if r then some true else afbAuthCheck g hasPermission next
  | .and first next =>
    (afbAuthCheck g hasPermission first).bind fun r =>
      if r then afbAuthCheck g hasPermission next else some false
  | .not first => (afbAuthCheck g hasPermission first).map (!·)
  | .yes => some true

def Gate.refresh (g : Gate J) (new : Bytes) : Option (Gate J) :=
  (afbContextRefresh g.set g.context new).map fun x => { g with set := x.1, context := x.2 }

def Gate.close (g : Gate J) : Gate J := { g with context := afbContextClose g.context }

/-- new is the result of new_uuid, mem and mem' tell whether vasprintf and the allocation of
the cookie succeed. -/
def xreqSessionCheckApplyV1 (g : Gate J) (sessionflags : BitVec 32) (new : Bytes)
    (mem mem' : Bool) : Option (Int × Gate J) :=
  let loa := ((sessionflags >>> AFB_SESSION_LOA_SHIFT_X1) &&& AFB_SESSION_LOA_MASK_X1).toNat
  if sessionflags &&& (AFB_SESSION_CLOSE_X1 ||| AFB_SESSION_RENEW_X1 ||| AFB_SESSION_CHECK_X1 |||
      AFB_SESSION_LOA_EQ_X1) ≠ 0 ∧ !afbContextCheck g.context then
    some (-1, g.close.replyF "denied" "invalid token's identity" mem)
  else
    (if sessionflags &&& AFB_SESSION_LOA_GE_X1 ≠ 0 then afbContextCheckLoa g.set g.context loa
      else some true).bind fun enough =>
    if !enough then some (-1, g.replyF "denied" "invalid LOA" mem)
    else
      (if sessionflags &&& AFB_SESSION_LOA_LE_X1 ≠ 0 then
          afbContextCheckLoa g.set g.context (loa + 1)
        else some false).bind fun tooHigh =>
      if tooHigh then some (-1, g.replyF "denied" "invalid LOA" mem)
      else
        (if sessionflags &&& AFB_SESSION_RENEW_X1 ≠ 0 then g.refresh new else some g).bind fun g =>
        if sessionflags &&& AFB_SESSION_CLOSE_X1 ≠ 0 then
          (afbContextChangeLoa g.set g.context 0 mem').map fun x =>
            (0, { g with set := x.2 }.close)
        else some (0, g)

def xreqSessionCheckApplyV2 (g : Gate J) (hasPermission : String → Bool)
    (sessionflags : BitVec 32) (auth : Option Auth) (new : Bytes) (mem : Bool) :
    Option (Int × Gate J) :=
  let loa := (sessionflags &&& AFB_SESSION_LOA_MASK_X2).toNat
  if sessionflags ≠ 0 ∧ !afbContextCheck g.context then
    some (-1, g.close.replyF "denied" "invalid token's identity" mem)
  else
    (if loa ≠ 0 then afbContextCheckLoa g.set g.context loa else some true).bind fun enough =>
    if !enough then some (-1, g.replyF "denied" "invalid LOA" mem)
    else
      (match auth with
        | some auth => afbAuthCheck g hasPermission auth
        | none => some true).bind fun granted =>
      if !granted then some (-1, g.replyF "denied" "authorisation refused" mem)
      else
        (if sessionflags &&& AFB_SESSION_REFRESH_X2 ≠ 0 then g.refresh new else some g).map
          fun g : Gate J =>
        if sessionflags &&& AFB_SESSION_CLOSE_X2 ≠ 0 then
          (0, g.close)
        else (0, g)

def afbXreqCallVerbV1 (g : Gate J) (verb : Option VerbDescV1) (new : Bytes) (mem mem' : Bool) :
    Option (Outcome J) :=
  match verb with
  | none => some (.answered (afbXreqReplyUnknownVerb g mem))
  | some verb => (xreqSessionCheckApplyV1 g verb.session new mem mem').map fun r =>
    if r.1 = 0 then .called r.2 else .answered r.2

def afbXreqCallVerbV2 (g : Gate J) (hasPermission : String → Bool) (verb : Option Verb)
    (new : Bytes) (mem : Bool) : Option (Outcome J) :=
  match verb with
  | none => some (.answered (afbXreqReplyUnknownVerb g mem))
  | some verb =>
    (xreqSessionCheckApplyV2 g hasPermission verb.session verb.auth new mem).map fun r =>
      if r.1 = 0 then .called r.2 else .answered r.2

/-- The result of the check is compared otherwise than in the version 2. -/
def afbXreqCallVerbV3 (g : Gate J) (hasPermission : String → Bool) (verb : Option Verb)
    (new : Bytes) (mem : Bool) : Option (Outcome J) :=
  match verb with
  | none => some (.answered (afbXreqReplyUnknownVerb g mem))
  | some verb =>
    (xreqSessionCheckApplyV2 g hasPermission verb.session verb.auth new mem).map fun r =>
      if 0 ≤ r.1 then .called r.2 else .answered r.2

/-- The LOA of the api in the session. -/
def Gate.currentLoa (g : Gate J) : Nat := (afbContextGetLoa g.set g.context).getD 0

/-- What the authorisation tree asks for. -/
def Auth.Grants (g : Gate J) (hasPermission : String → Bool) : Auth → Prop
  | .no => False
  | .token => g.context.flags.validated = true
  | .loa n => n ≤ g.currentLoa
  | .permission text => hasPermission text = true
  | .or first next => first.Grants g hasPermission ∨ next.Grants g hasPermission
  | .and first next => first.Grants g hasPermission ∧ next.Grants g hasPermission
  | .not first => ¬ first.Grants g hasPermission
  | .yes => True

/-- The LOA declared by the flags of a verb of version 1. -/
def declaredLoa (sessionflags : BitVec 32) : Nat := (sessionflags.toNat / 2 ^ 6) % 8

/-- One of the flags of version 1 that need a token is set. -/
def AsksToken (sessionflags : BitVec 32) : Prop :=
  sessionflags &&& AFB_SESSION_CLOSE_X1 ≠ 0 ∨ sessionflags &&& AFB_SESSION_RENEW_X1 ≠ 0 ∨
    sessionflags &&& AFB_SESSION_CHECK_X1 ≠ 0 ∨ sessionflags &&& AFB_SESSION_LOA_GE_X1 ≠ 0 ∨
    sessionflags &&& AFB_SESSION_LOA_LE_X1 ≠ 0

/-- The conditions of a verb of version 1. -/
structure AdmitsV1 (g : Gate J) (sessionflags : BitVec 32) : Prop where
  token : AsksToken sessionflags → g.context.flags.validated = true
  ge : sessionflags &&& AFB_SESSION_LOA_GE_X1 ≠ 0 → declaredLoa sessionflags ≤ g.currentLoa
  le : sessionflags &&& AFB_SESSION_LOA_LE_X1 ≠ 0 → g.currentLoa ≤ declaredLoa sessionflags

/-- The conditions of a verb of version 2 or 3. -/
structure AdmitsV2 (g : Gate J) (hasPermission : String → Bool) (verb : Verb) : Prop where
  token : verb.session = 0 ∨ g.context.flags.validated = true
  loa : verb.session.toNat % 4 ≤ g.currentLoa
  auth : ∀ auth, verb.auth = some auth → auth.Grants g hasPermission

/-- The replies of the request, in order. -/
def replies (x : Xreq J) : List (Reply J) :=
  x.events.filterMap fun
    | .reply r => some r
    | _ => none

/-- The callback is called, and the check has not answered the request. -/
def Called (g : Gate J) (r : Option (Outcome J)) : Prop :=
  ∃ g', r = some (.called g') ∧ g'.xreq = g.xreq

/-- The callback is not called, and the reply denied is issued, which is one more reply of a
request that has none yet. -/
def Denied (g : Gate J) (r : Option (Outcome J)) : Prop :=
  ∃ g' info, r = some (.answered g') ∧
    g'.xreq = afbXreqReply g.xreq ⟨none, some "denied", info⟩ ∧
    (g.xreq.replied = false →
      replies g'.xreq = replies g.xreq ++ [⟨none, some "denied", info⟩])

section
variable {g : Gate J} {i : SessionId} {hasPermission : String → Bool}

private theorem checkLoa_eq (hs : g.context.session = some i) (loa : Nat) :
    afbContextCheckLoa g.set g.context loa = some (decide (loa ≤ g.currentLoa)) := by
  simp [afbContextCheckLoa, Gate.currentLoa, afbContextGetLoa, hs]

/-- The check of a tree always ends, with what the tree asks for. -/
theorem authCheck_iff (hs : g.context.session = some i) (auth : Auth) :
    ∃ r, afbAuthCheck g hasPermission auth = some r ∧ (r = true ↔ auth.Grants g hasPermission) := by
  induction auth with
  | no => exact ⟨false, rfl, by simp [Auth.Grants]⟩
  | token => exact ⟨_, rfl, Iff.rfl⟩
  | loa loa => exact ⟨_, checkLoa_eq hs loa, by simp [Auth.Grants]⟩
  | permission text => exact ⟨_, rfl, Iff.rfl⟩
  | or first next ih ih' =>
    obtain ⟨r, hr, hiff⟩ := ih
    obtain ⟨r', hr', hiff'⟩ := ih'
    refine ⟨r || r', ?_, ?_⟩
    · rw [afbAuthCheck, hr, hr']
      cases r <;> rfl
    · rw [Bool.or_eq_true, hiff, hiff', Auth.Grants]
  | and first next ih ih' =>
    obtain ⟨r, hr, hiff⟩ := ih
    obtain ⟨r', hr', hiff'⟩ := ih'
    refine ⟨r && r', ?_, ?_⟩
    · rw [afbAuthCheck, hr, hr']
      cases r <;> rfl
    · rw [Bool.and_eq_true, hiff, hiff', Auth.Grants]
  | not first ih =>
    obtain ⟨r, hr, hiff⟩ := ih
    refine ⟨!r, ?_, ?_⟩
    · rw [afbAuthCheck, hr, Option.map_some]
    · rw [Bool.not_eq_true', ← Bool.not_eq_true, hiff, Auth.Grants]
  | yes => exact ⟨true, rfl, by simp [Auth.Grants]⟩

private theorem refresh_ok (hs : g.context.session = some i)
    (hv : g.context.flags.validated = true) (new : Bytes) :
    ∃ g', g.refresh new = some g' ∧ g'.xreq = g.xreq ∧ g'.context.session = some i := by
  unfold Gate.refresh afbContextRefresh
  rw [if_pos hv]
  split
  · exact ⟨_, rfl, rfl, hs⟩
  · rw [hs]
    exact ⟨_, rfl, rfl, hs⟩

private theorem changeLoa_ok {s : SessionSet} {c : Context} (hs : c.session = some i) (loa : Nat)
    (mem : Bool) : ∃ x, afbContextChangeLoa s c loa mem = some x := by
  unfold afbContextChangeLoa
  rw [hs]
  split <;> exact ⟨_, rfl⟩

private theorem and_or_ne_zero (x a b : BitVec 32) :
    x &&& (a ||| b) ≠ 0 ↔ x &&& a ≠ 0 ∨ x &&& b ≠ 0 := by
  rw [BitVec.and_or_distrib_left]
  exact (not_congr BitVec.or_eq_zero_iff).trans not_and_or

private theorem token_flags (x : BitVec 32) :
    x &&& (AFB_SESSION_CLOSE_X1 ||| AFB_SESSION_RENEW_X1 ||| AFB_SESSION_CHECK_X1 |||
        AFB_SESSION_LOA_EQ_X1) ≠ 0 ↔ AsksToken x := by
  have heq : AFB_SESSION_LOA_EQ_X1 = AFB_SESSION_LOA_GE_X1 ||| AFB_SESSION_LOA_LE_X1 := rfl
  rw [heq, and_or_ne_zero, and_or_ne_zero, and_or_ne_zero, and_or_ne_zero, or_assoc, or_assoc,
    AsksToken]

private theorem declaredLoa_eq (x : BitVec 32) :
    ((x >>> AFB_SESSION_LOA_SHIFT_X1) &&& AFB_SESSION_LOA_MASK_X1).toNat = declaredLoa x := by
  have hmask : (AFB_SESSION_LOA_MASK_X1).toNat = 2 ^ 3 - 1 := rfl
  rw [BitVec.toNat_and, hmask, Nat.and_two_pow_sub_one_eq_mod, BitVec.toNat_ushiftRight,
    Nat.shiftRight_eq_div_pow]
  rfl

private theorem loaMask_eq (x : BitVec 32) :
    (x &&& AFB_SESSION_LOA_MASK_X2).toNat = x.toNat % 4 := by
  have hmask : (AFB_SESSION_LOA_MASK_X2).toNat = 2 ^ 2 - 1 := rfl
  rw [BitVec.toNat_and, hmask, Nat.and_two_pow_sub_one_eq_mod]

/-- The check lets the request pass as it is, or refuses it with one denied reply. -/
private inductive Checked (g : Gate J) (admitted : Prop) : Option (Int × Gate J) → Prop
  | passed (g' : Gate J) (h : admitted) (hx : g'.xreq = g.xreq) : Checked g admitted (some (0, g'))
  | refused (g' : Gate J) (info : Option String) (h : ¬ admitted)
      (hx : g'.xreq = afbXreqReply g.xreq ⟨none, some "denied", info⟩) :
      Checked g admitted (some (-1, g'))

private theorem checked_replyF (g g' : Gate J) {admitted : Prop} (h : ¬ admitted) (info : String)
    (mem : Bool) (hx : g'.xreq = g.xreq) :
    Checked g admitted (some (-1, g'.replyF "denied" info mem)) := by
  refine .refused _ (if mem then some info else none) h ?_
  rw [Gate.replyF, hx]

private theorem ite_true (p q : Prop) [Decidable p] [Decidable q] :
    (if p then some (decide q) else some true) = some (decide (p → q)) := by
  by_cases hp : p <;> simp [hp]

private theorem ite_false (p q : Prop) [Decidable p] [Decidable q] :
    (if p then some (decide q) else some false) = some (decide (p ∧ q)) := by
  by_cases hp : p <;> simp [hp]

private theorem checked_v1 (hs : g.context.session = some i) (sessionflags : BitVec 32)
    (new : Bytes) (mem mem' : Bool) :
    Checked g (AdmitsV1 g sessionflags)
      (xreqSessionCheckApplyV1 g sessionflags new mem mem') := by
  unfold xreqSessionCheckApplyV1
  dsimp only
  rw [declaredLoa_eq, checkLoa_eq hs, checkLoa_eq hs, ite_true, ite_false, Option.bind_some,
    Option.bind_some]
  split
  · rename_i htoken
    refine checked_replyF g g.close (fun ha => ?_) _ mem rfl
    have hv := ha.token ((token_flags sessionflags).mp htoken.1)
    simp [afbContextCheck, hv] at htoken
  rename_i htoken
  have hvalid : AsksToken sessionflags → g.context.flags.validated = true := by
    intro hflag
    rw [← Bool.not_eq_false]
    intro hv
    exact htoken ⟨(token_flags sessionflags).mpr hflag, by simp [afbContextCheck, hv]⟩
  split
  · rename_i hge
    rw [Bool.not_eq_true', decide_eq_false_iff_not, Classical.not_imp] at hge
    exact checked_replyF g g (fun ha => hge.2 (ha.ge hge.1)) _ mem rfl
  rename_i hge
  split
  · rename_i hle
    rw [decide_eq_true_eq] at hle
    exact checked_replyF g g (fun ha => by have := ha.le hle.1; omega) _ mem rfl
  rename_i hle
  have hadmit : AdmitsV1 g sessionflags := by
    refine ⟨hvalid, ?_, fun h => ?_⟩
    · simpa using hge
    · simp only [decide_eq_true_eq, not_and] at hle
      have := hle h
      omega
  -- the refresh and the close
  obtain ⟨g', hg', hx, hs'⟩ : ∃ g', (if sessionflags &&& AFB_SESSION_RENEW_X1 ≠ 0 then g.refresh new
      else some g) = some g' ∧ g'.xreq = g.xreq ∧ g'.context.session = some i := by
    split
    · exact refresh_ok hs (hvalid (.inr (.inl ‹_›))) new
    · exact ⟨g, rfl, rfl, hs⟩
  rw [hg', Option.bind_some]
  split
  · obtain ⟨x, hc⟩ := changeLoa_ok (s := g'.set) hs' 0 mem'
    rw [hc]
    exact .passed _ hadmit hx
  · exact .passed _ hadmit hx

private theorem checked_v2 (hs : g.context.session = some i) (hasPermission : String → Bool)
    (verb : Verb) (new : Bytes) (mem : Bool) :
    Checked g (AdmitsV2 g hasPermission verb)
      (xreqSessionCheckApplyV2 g hasPermission verb.session verb.auth new mem) := by
  unfold xreqSessionCheckApplyV2
  dsimp only
  rw [loaMask_eq, checkLoa_eq hs, ite_true, Option.bind_some]
  split
  · rename_i htoken
    refine checked_replyF g g.close (fun ha => ?_) _ mem rfl
    have hv := ha.token.resolve_left htoken.1
    simp [afbContextCheck, hv] at htoken
  rename_i htoken
  have hvalid : verb.session = 0 ∨ g.context.flags.validated = true := by
    by_contra hnot
    rw [not_or, Bool.not_eq_true] at hnot
    exact htoken ⟨hnot.1, by simp [afbContextCheck, hnot.2]⟩
  split
  · rename_i hloa
    simp only [Bool.not_eq_true', decide_eq_false_iff_not, Classical.not_imp] at hloa
    exact checked_replyF g g (fun ha => hloa.2 ha.loa) _ mem rfl
  rename_i hloa
  simp only [Bool.not_eq_true', decide_eq_false_iff_not, not_not] at hloa
  have henough : verb.session.toNat % 4 ≤ g.currentLoa := by
    by_cases h0 : verb.session.toNat % 4 = 0
    · rw [h0]
      exact Nat.zero_le _
    · exact hloa h0
  obtain ⟨granted, hgranted, hiff⟩ : ∃ r, (match verb.auth with
      | some auth => afbAuthCheck g hasPermission auth
      | none => some true) = some r ∧
      (r = true ↔ ∀ auth, verb.auth = some auth → auth.Grants g hasPermission) := by
    cases hauth : verb.auth with
    | none => exact ⟨true, rfl, by simp⟩
    | some auth =>
      obtain ⟨r, hr, hiff⟩ := authCheck_iff hs auth
      exact ⟨r, hr, by simp [hiff]⟩
  rw [hgranted, Option.bind_some]
  split
  · rename_i hrefused
    rw [Bool.not_eq_true', ← Bool.not_eq_true, hiff] at hrefused
    exact checked_replyF g g (fun ha => hrefused ha.auth) _ mem rfl
  rename_i hpassed
  have hadmit : AdmitsV2 g hasPermission verb :=
    ⟨hvalid, henough, hiff.mp (by simpa using hpassed)⟩
  obtain ⟨g', hg', hx⟩ : ∃ g', (if verb.session &&& AFB_SESSION_REFRESH_X2 ≠ 0 then g.refresh new
      else some g) = some g' ∧ g'.xreq = g.xreq := by
    split
    · rename_i hrefresh
      have hflags : verb.session ≠ 0 := by
        intro h0
        rw [h0] at hrefresh
        exact hrefresh (BitVec.zero_and)
      obtain ⟨g', hg', hx, -⟩ := refresh_ok hs (hvalid.resolve_left hflags) new
      exact ⟨g', hg', hx⟩
    · exact ⟨g, rfl, rfl⟩
  rw [hg', Option.map_some]
  split
  · exact .passed _ hadmit hx
  · exact .passed _ hadmit hx

private theorem replies_reply {x : Xreq J} (h : x.replied = false) (r : Reply J) :
    replies (afbXreqReply x r) = replies x ++ [r] := by
  unfold afbXreqReply
  split
  · simp [replies, xreqHookedReplyCb, xreqReplyCb, Xreq.emit, h]
  · simp [replies, xreqReplyCb, Xreq.emit, h]

/-- What the caller of the check makes of its result, when it calls the callback exactly for
the result 0. -/
theorem Checked.outcome {admitted : Prop} {r : Option (Int × Gate J)}
    (h : Checked g admitted r) (calls : Int → Prop) [DecidablePred calls] (hpassed : calls 0)
    (hrefused : ¬ calls (-1)) :
    let o := r.map fun r => if calls r.1 then Outcome.called r.2 else .answered r.2
    (Called g o ↔ admitted) ∧ (¬ admitted → Denied g o) := by
  cases h with
  | passed g' h hx =>
    rw [Option.map_some, if_pos hpassed]
    exact ⟨iff_of_true ⟨g', rfl, hx⟩ h, fun hn => absurd h hn⟩
  | refused g' info h hx =>
    rw [Option.map_some, if_neg hrefused]
    refine ⟨iff_of_false ?_ h, fun _ => ⟨g', info, rfl, hx, fun hr => ?_⟩⟩
    · rintro ⟨g', hg', -⟩
      cases hg'
    · rw [hx]
      exact replies_reply hr _

end

/-- For a request that has a session, a verb of any version has its callback called exactly
when its conditions hold, and is denied otherwise; no assertion fails on the way. -/
theorem verbs_gated (g : Gate J) (i : SessionId) (hasPermission : String → Bool) (new : Bytes)
    (mem mem' : Bool) (hs : g.context.session = some i) :
    (∀ verb : VerbDescV1,
      let r := afbXreqCallVerbV1 g (some verb) new mem mem'
      (Called g r ↔ AdmitsV1 g verb.session) ∧ (¬ AdmitsV1 g verb.session → Denied g r)) ∧
    (∀ verb : Verb,
      let r := afbXreqCallVerbV2 g hasPermission (some verb) new mem
      (Called g r ↔ AdmitsV2 g hasPermission verb) ∧
        (¬ AdmitsV2 g hasPermission verb → Denied g r)) ∧
    ∀ verb : Verb,
      let r := afbXreqCallVerbV3 g hasPermission (some verb) new mem
      (Called g r ↔ AdmitsV2 g hasPermission verb) ∧
        (¬ AdmitsV2 g hasPermission verb → Denied g r) := by
  refine ⟨fun verb => ?_, fun verb => ?_, fun verb => ?_⟩
  · exact (checked_v1 hs verb.session new mem mem').outcome (· = 0) rfl (by decide)
  · exact (checked_v2 hs hasPermission verb new mem).outcome (· = 0) rfl (by decide)
  · exact (checked_v2 hs hasPermission verb new mem).outcome (0 ≤ ·) (by decide) (by decide)

/-- A verb of version 2 for a validated context of LOA 2, or for a granted permission when the
token is checked by the tree. -/
def sampleVerb : Verb := ⟨2, some (.and .token (.or (.loa 3) (.permission "urn:x")))⟩

def sampleGate (validated : Bool) : Gate Nat :=
  ⟨Request.afbXreqInit [] "api" "verb",
    (afbSessionSetCookie (SessionSet.start.own 0) 0 4097 2 none true).2,
    ⟨some 0, 4096, { Flags.none with validated }⟩⟩

theorem verbs_gated_sample :
    Called (sampleGate true)
      (afbXreqCallVerbV2 (sampleGate true) (· = "urn:x") (some sampleVerb) [] true) ∧
    Denied (sampleGate false)
      (afbXreqCallVerbV3 (sampleGate false) (· = "urn:x") (some sampleVerb) [] true) :=
  ⟨((verbs_gated (sampleGate true) 0 (· = "urn:x") [] true true rfl).2.1 sampleVerb).1.mpr
      ⟨.inr rfl, by decide, fun auth h => Option.some.inj h ▸ ⟨rfl, .inr rfl⟩⟩,
    ((verbs_gated (sampleGate false) 0 (· = "urn:x") [] true true rfl).2.2 sampleVerb).2
      fun h => by
        have htoken := h.token
        revert htoken
        decide⟩

end AfbBinder.Contexts
