import AfbBinder.Contexts.Verbs

/-! The contexts of the subcalls, each under the one of its caller, and the checks that follow the
chain: the one of the token calls itself on the context it is given. -/
namespace AfbBinder.Contexts
open Lib.Cstrings Sessions

/-- A context with the ones above it. -/
inductive Chain where
  | root (context : Context)
  | sub (context : Context) (super : Chain)
  deriving DecidableEq, Repr

namespace Chain

def context : Chain → Context
  | .root context => context
  | .sub context _ => context

def super : Chain → Option Chain
  | .root _ => none
  | .sub _ super => some super

/-- The context at the top. -/
def top : Chain → Context
  | .root context => context
  | .sub _ super => super.top

def afbContextSubinit (super : Chain) : Chain :=
  .sub ⟨super.context.session, 0,
    { Flags.none with validated := super.context.flags.validated }⟩ super

/-- A call a unit of fuel. -/
def afbContextCheck : Nat → Chain → Option Bool
  | 0, _ => none
  | fuel + 1, chain =>
    match chain.super with
    | some _ => afbContextCheck fuel chain
    | none => some chain.context.flags.validated

section
variable (fuel : Nat) (s : SessionSet) (hasPermission : String → Bool) (chain : Chain)

/-- Afb_auth_check on a request whose context is the one of the chain. -/
def afbAuthCheck : Auth → Option Bool
  | .no => some false
  | .token => afbContextCheck fuel chain
  | .loa loa => afbContextCheckLoa s chain.context loa
  | .permission text => some (hasPermission text)
  | .or first next =>
    (afbAuthCheck first).bind fun r => if r then some true else afbAuthCheck next
  | .and first next =>
    (afbAuthCheck first).bind fun r => if r then afbAuthCheck next else some false
  | .not first => (afbAuthCheck first).map (!·)
  | .yes => some true

/-- The checks of xreq_session_check_apply_v1: whether all pass. -/
def sessionCheckV1 (sessionflags : BitVec 32) : Option Bool :=
  let loa := ((sessionflags >>> AFB_SESSION_LOA_SHIFT_X1) &&& AFB_SESSION_LOA_MASK_X1).toNat
  (if sessionflags &&& (AFB_SESSION_CLOSE_X1 ||| AFB_SESSION_RENEW_X1 ||| AFB_SESSION_CHECK_X1 |||
      AFB_SESSION_LOA_EQ_X1) ≠ 0 then afbContextCheck fuel chain else some true).bind fun valid =>
  if !valid then some false
  else
    (if sessionflags &&& AFB_SESSION_LOA_GE_X1 ≠ 0 then afbContextCheckLoa s chain.context loa
      else some true).bind fun enough =>
    if !enough then some false
    else
      (if sessionflags &&& AFB_SESSION_LOA_LE_X1 ≠ 0 then
        afbContextCheckLoa s chain.context (loa + 1) else some false).map (!·)

/-- The checks of xreq_session_check_apply_v2. -/
def sessionCheckV2 (sessionflags : BitVec 32) (auth : Option Auth) : Option Bool :=
  let loa := (sessionflags &&& AFB_SESSION_LOA_MASK_X2).toNat
  (if sessionflags ≠ 0 then afbContextCheck fuel chain else some true).bind fun valid =>
  if !valid then some false
  else
    (if loa ≠ 0 then afbContextCheckLoa s chain.context loa else some true).bind fun enough =>
    if !enough then some false
    else
      match auth with
      | some auth => afbAuthCheck fuel s hasPermission chain auth
      | none => some true

end

/-- The chains that the calls of init, connect and subinit build. -/
inductive Built : Chain → Prop where
  | init (s : SessionSet) (i : SessionId) (token : Option Bytes) :
    Built (.root (afbContextInit s i token).2)
  | connect {s s' : SessionSet} {uuid token : Option Bytes} {news : List Bytes} {mem : Bool}
    {c : Context} (h : afbContextConnect s uuid token news mem = some (.ok c, s')) :
    Built (.root c)
  | subinit {super : Chain} (h : Built super) : Built (afbContextSubinit super)

/-- What the checks are for on a chain: they end, the one of the token with the flag of the top. -/
structure Checked (s : SessionSet) (hasPermission : String → Bool) (chain : Chain) : Prop where
  token : ∃ fuel, afbContextCheck fuel chain = some chain.top.flags.validated
  auth : ∀ auth, ∃ fuel r, afbAuthCheck fuel s hasPermission chain auth = some r
  v1 : ∀ sessionflags, ∃ fuel r, sessionCheckV1 fuel s chain sessionflags = some r
  v2 : ∀ sessionflags auth, ∃ fuel r,
    sessionCheckV2 fuel s hasPermission chain sessionflags auth = some r

section
variable {s : SessionSet} {hasPermission : String → Bool} {chain : Chain}

/-- Under another context, the check of the token never ends. -/
theorem check_endless (h : chain.super ≠ none) (fuel : Nat) : afbContextCheck fuel chain = none := by
  induction fuel with
  | zero => rfl
  | succ fuel ih =>
    rw [afbContextCheck]
    cases hsuper : chain.super with
    | none => exact absurd hsuper h
    | some super => exact ih

private theorem check_root (h : chain.super = none) : afbContextCheck 1 chain =
    some chain.context.flags.validated := by
  rw [afbContextCheck, h]

private theorem initContext_session (s : SessionSet) (i : SessionId) (token : Option Bytes) :
    (initContext s i token).session = some i := by
  cases token with
  | none => rfl
  | some token =>
    rw [initContext]
    split
    · rfl
    · rfl

private theorem Built.session (h : Built chain) : ∃ i, chain.context.session = some i := by
  induction h with
  | init s i token => exact ⟨i, initContext_session _ i token⟩
  | connect h =>
    obtain ⟨r, -, heq⟩ := Option.map_eq_some_iff.mp h
    split at heq
    · cases heq
    · rename_i i _
      cases heq
      exact ⟨i, initContext_session _ i _⟩
  | subinit h ih => exact ih

private theorem checkLoa_ends (h : Built chain) (s : SessionSet) (loa : Nat) :
    ∃ r, afbContextCheckLoa s chain.context loa = some r := by
  obtain ⟨i, hi⟩ := h.session
  exact ⟨_, by rw [afbContextCheckLoa, afbContextGetLoa, hi]; rfl⟩

/-- On a context that is not under another, one unit of fuel is enough. -/
theorem auth_root (h : Built chain) (htop : chain.super = none) (auth : Auth) :
    ∃ r, afbAuthCheck 1 s hasPermission chain auth = some r := by
  induction auth with
  | no => exact ⟨_, rfl⟩
  | token => exact ⟨_, check_root htop⟩
  | loa loa => exact checkLoa_ends h s loa
  | permission text => exact ⟨_, rfl⟩
  | or first next ihf ihn =>
    obtain ⟨r, hr⟩ := ihf
    rw [afbAuthCheck, hr, Option.bind_some]
    cases r with
    | true => exact ⟨true, rfl⟩
    | false => exact ihn
  | and first next ihf ihn =>
    obtain ⟨r, hr⟩ := ihf
    rw [afbAuthCheck, hr, Option.bind_some]
    cases r with
    | true => exact ihn
    | false => exact ⟨false, rfl⟩
  | not first ih =>
    obtain ⟨r, hr⟩ := ih
    exact ⟨!r, by rw [afbAuthCheck, hr, Option.map_some]⟩
  | yes => exact ⟨_, rfl⟩

private theorem ite_ends {p : Prop} [Decidable p] {check : Option Bool} (otherwise : Bool)
    (h : ∃ r, check = some r) : ∃ r, (if p then check else some otherwise) = some r := by
  split
  · exact h
  · exact ⟨otherwise, rfl⟩

private theorem v1_root (h : Built chain) (htop : chain.super = none) (sessionflags : BitVec 32) :
    ∃ r, sessionCheckV1 1 s chain sessionflags = some r := by
  obtain ⟨valid, hvalid⟩ := ite_ends (p := sessionflags &&& (AFB_SESSION_CLOSE_X1 |||
    AFB_SESSION_RENEW_X1 ||| AFB_SESSION_CHECK_X1 ||| AFB_SESSION_LOA_EQ_X1) ≠ 0) true
    ⟨_, check_root htop⟩
  obtain ⟨enough, henough⟩ := ite_ends (p := sessionflags &&& AFB_SESSION_LOA_GE_X1 ≠ 0) true
    (checkLoa_ends h s ((sessionflags >>> AFB_SESSION_LOA_SHIFT_X1) &&&
      AFB_SESSION_LOA_MASK_X1).toNat)
  obtain ⟨tooHigh, htooHigh⟩ := ite_ends (p := sessionflags &&& AFB_SESSION_LOA_LE_X1 ≠ 0) false
    (checkLoa_ends h s (((sessionflags >>> AFB_SESSION_LOA_SHIFT_X1) &&&
      AFB_SESSION_LOA_MASK_X1).toNat + 1))
  rw [sessionCheckV1, hvalid, Option.bind_some]
  cases valid with
  | false => exact ⟨false, rfl⟩
  | true =>
    rw [if_neg (by decide), henough, Option.bind_some]
    cases enough with
    | false => exact ⟨false, rfl⟩
    | true =>
      rw [if_neg (by decide), htooHigh]
      exact ⟨!tooHigh, rfl⟩

private theorem v2_root (h : Built chain) (htop : chain.super = none) (sessionflags : BitVec 32)
    (auth : Option Auth) : ∃ r, sessionCheckV2 1 s hasPermission chain sessionflags auth = some r := by
  obtain ⟨valid, hvalid⟩ := ite_ends (p := sessionflags ≠ 0) true ⟨_, check_root htop⟩
  obtain ⟨enough, henough⟩ := ite_ends (p := (sessionflags &&& AFB_SESSION_LOA_MASK_X2).toNat ≠ 0)
    true (checkLoa_ends h s (sessionflags &&& AFB_SESSION_LOA_MASK_X2).toNat)
  unfold sessionCheckV2
  dsimp only
  rw [hvalid, Option.bind_some]
  cases valid with
  | false => exact ⟨false, rfl⟩
  | true =>
    rw [if_neg (by decide), henough, Option.bind_some]
    cases enough with
    | false => exact ⟨false, rfl⟩
    | true =>
      rw [if_neg (by decide)]
      cases auth with
      | none => exact ⟨true, rfl⟩
      | some auth => exact auth_root h htop auth

end

/-- The checks on a chain that was built end as they should exactly when the context is the top of
its chain, not the one of a subcall made with the session of its caller. -/
theorem checked_iff {chain : Chain} (h : Built chain) (s : SessionSet)
    (hasPermission : String → Bool) : Checked s hasPermission chain ↔ chain.super = none := by
  constructor
  · intro hchecked
    obtain ⟨fuel, hfuel⟩ := hchecked.token
    by_contra hsuper
    rw [check_endless hsuper] at hfuel
    cases hfuel
  · intro htop
    refine ⟨⟨1, ?_⟩, fun auth => ⟨1, auth_root h htop auth⟩, fun flags => ⟨1, v1_root h htop flags⟩,
      fun flags auth => ⟨1, v2_root h htop flags auth⟩⟩
    cases chain with
    | root context => rfl
    | sub context super => cases htop

/-- The context of a request, and the one of a subcall that it makes with its session. -/
def caller : Chain := .root (afbContextInit .start 0 none).2

theorem checked_caller : Checked .start (fun _ => true) caller ↔ caller.super = none :=
  checked_iff (.init .start 0 none) .start fun _ => true

theorem subcall_unchecked : Built (afbContextSubinit caller) ∧
    ¬Checked .start (fun _ => true) (afbContextSubinit caller) := by
  refine ⟨.subinit (.init .start 0 none), fun h => ?_⟩
  obtain ⟨fuel, hfuel⟩ := h.token
  have hsuper : (afbContextSubinit caller).super ≠ none := Option.some_ne_none caller
  rw [check_endless hsuper] at hfuel
  cases hfuel

end Chain

end AfbBinder.Contexts
