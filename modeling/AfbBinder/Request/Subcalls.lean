import AfbBinder.Lib.Forests
import AfbBinder.Request.ReplyOnce

/-! The requests that call each other. A subcall holds a reference to its caller until it is
finalised, so the requests are a forest, and each step is one of a request alone with what it
changes for the caller. The requests are listed in the order of their creation. -/
namespace AfbBinder.Request
open Lib.Runs Lib.Forests

/-- How far do_sync is with the request: not a synchronous call, before sync_enter, once sync_enter
processed the request, once it is known that it will not, and after the last unref. -/
inductive Sync where
  | none
  | entering
  | entered
  | failed
  | returned
  | leaked
  deriving DecidableEq, Repr

/-- The references of do_sync: that of the creation and the one that avoids an early destruction. -/
def Sync.references : Sync → Nat
  | .entering | .failed => 2
  | .entered | .leaked => 1
  | .none | .returned => 0

/-- A request with the api of its context, once found, and its caller. It is called once its api is.
It is released once xreq_finalize released the caller; own counts the references of the users
that are not those of subcalls or of do_sync. -/
structure Node (J : Type) where
  request : State J
  group : Option (Option Group)
  called : Bool
  caller : Option Nat
  released : Bool
  own : Nat
  sync : Sync
  deriving DecidableEq, Repr

abbrev Forest (J : Type) := List (Node J)

variable {J : Type}

/-- The addref of the creator of the request. -/
def State.kept (r : State J) : State J :=
  { r with xreq := afbXreqUnhookedAddref r.xreq, users := r.users + 1 }

/-- What callreq_create makes, and the addref of do_sync. -/
def Node.create (caller : Option Nat) (callers : List (Option Group)) (sync : Bool) (api verb : String) : Node J where
  request := if sync then (State.init callers api verb).kept else .init callers api verb
  group := none
  called := false
  caller
  released := false
  own := if sync then 0 else 1
  sync := if sync then .entering else .none

/-- The api that is found for the context. -/
def Action.api : Action J → Option (Option Group)
  | .submit (.found group) => some group
  | _ => none

/-- The node after an action on its request. -/
def Node.after (n : Node J) (a : Action J) (r : State J) : Node J :=
  { n with request := r, group := a.api.or n.group, called := n.called || r.job.head? = some .call }

/-- The action on the request at the place, with what it changes of its references. -/
def Forest.act (s : Forest J) (i : Nat) (a : Action J) (guard : Node J → Bool) (f : Node J → Node J) :
    Option (Forest J) :=
  s[i]?.bind fun n => if guard n then (step n.request a).map fun r => s.set i (f (n.after a r)) else none

inductive ForestAction (J : Type) where
  | create (caller : Option Nat) (sync : Bool) (api verb : String)
  | addref (i : Nat)
  | unref (i : Nat)
  | reply (i : Nat) (r : Reply J)
  | submit (i : Nat) (lookup : Lookup)
  | fail (i : Nat)
  | abort (i : Nat)
  | leave (i : Nat)
  | process (i : Nat) (hookflags mem queued : Bool)
  | job (i : Nat) (hookflags mem : Bool)
  | signal (i : Nat) (sig : Signal)
  | release (i : Nat)

def internalError : Reply J := ⟨none, some "internal-error", none⟩

/-- Someone may use the request: a user or a subcall with a reference, or the api that is called.
do_sync, that waits for the reply, is none of them. -/
def Node.usable (n : Node J) : Bool :=
  n.sync.references < n.request.users ∨ n.request.job.head? = some .call

/-- A called request may have subcalls. The reference of the creation is given to afb_xreq_process,
by sync_enter for a synchronous call, except when sync_enter gets a signal (abort) or is not
called (fail): then do_sync unrefs the request once for its two references. After sync_enter
jobs_enter returns when the reply of the request makes it leave. -/
def Forest.step (s : Forest J) : ForestAction J → Option (Forest J)
  | .create none sync api verb => some (s ++ [.create none [] sync api verb])
  | .create (some c) sync api verb =>
    s[c]?.bind fun m => (s.act c .addref (fun n => n.called && n.usable) id).map fun t =>
      t ++ [.create (some c) (m.group.getD none :: m.request.xreq.callers) sync api verb]
  | .addref i => s.act i .addref Node.usable fun n => { n with own := n.own + 1 }
  | .unref i => s.act i .unref (fun n => 0 < n.own) fun n => { n with own := n.own - 1 }
  | .reply i r => s.act i (.reply r) Node.usable id
  | .submit i lookup =>
    s.act i (.submit lookup) (fun n => 0 < n.own ∨ n.sync = .entering) fun n =>
      if n.sync = .entering then { n with sync := .entered } else { n with own := n.own - 1 }
  | .fail i => s[i]?.bind fun n => if n.sync = .entering then some (s.set i { n with sync := .failed }) else none
  | .abort i => s.act i (.reply internalError) (fun n => n.sync = .entering) fun n => { n with sync := .failed }
  | .leave i =>
    s.act i .unref (fun n => n.sync = .entered ∧ n.request.xreq.replied = true ∨ n.sync = .failed) fun n =>
      { n with sync := if n.sync = .entered then .returned else .leaked }
  | .process i hookflags mem queued => s.act i (.process hookflags mem queued) (fun _ => true) id
  | .job i hookflags mem => s.act i (.job hookflags mem) (fun _ => true) id
  | .signal i sig => s.act i (.signal sig) (fun _ => true) id
  | .release i =>
    s[i]?.bind fun n => n.caller.bind fun c =>
      if n.request.xreq.refcount = 0 ∧ n.released = false then
        Forest.act (s.set i { n with released := true }) c .unref (fun _ => true) id
      else none

/-- The subcalls of the request that have their reference. -/
def subcalls (s : Forest J) (c : Nat) : Nat := children Node.caller (fun n => !n.released) s c

/-- A subcall stands below its caller, and the callers of its caller. -/
def Forest.Below (s : Forest J) : Nat → Nat → Prop := Lib.Forests.Below Node.caller s

/-- The groups of the apis of the callers, walked as afb_xreq_process does. -/
def Forest.stack (s : Forest J) (i : Nat) (caller : Option Nat) : List (Option Group) :=
  (walk Node.caller s i caller).map fun m => m.group.getD none

/-! One action on a request alone. -/

/-- The references that an action adds to those of the users. -/
def Action.references : Action J → Int
  | .addref => 1
  | .unref => -1
  | .submit _ => -1
  | _ => 0

/-- The request waits for its job, or the job has begun. -/
def State.queued (r : State J) : Prop := r.job ≠ [] ∨ .queue ∈ r.process.getD []

section
variable (x : Xreq J)

@[simp] private theorem emit_callers (e : Event J) : (x.emit e).callers = x.callers := rfl

@[simp] private theorem xreqReplyCb_callers (r : Reply J) : (xreqReplyCb x r).callers = x.callers := by
  unfold xreqReplyCb
  split <;> rfl

@[simp] private theorem afbXreqReply_callers (r : Reply J) : (afbXreqReply x r).callers = x.callers := by
  unfold afbXreqReply xreqHookedReplyCb
  split <;> simp

@[simp] private theorem xreqFinalize_callers : (xreqFinalize x).callers = x.callers := by
  unfold xreqFinalize
  dsimp only
  split_ifs <;> simp

@[simp] private theorem unref_callers : (afbXreqUnhookedUnref x).callers = x.callers := by
  unfold afbXreqUnhookedUnref
  dsimp only
  split <;> simp

@[simp] private theorem initHooking_callers (b : Bool) : (initHooking x b).callers = x.callers := by
  cases b <;> rfl

@[simp] private theorem runInstr_callers (hookflags mem : Bool) (i : Instr) :
    (runInstr x hookflags mem i).callers = x.callers := by
  cases i <;> simp [runInstr, afbXreqUnhookedAddref]

end

/-- What an action changes that the caller and the subcalls of the request see. -/
structure Moved (r : State J) (a : Action J) (u : State J) : Prop where
  callers : u.xreq.callers = r.xreq.callers
  users : (u.users : Int) = r.users + a.references
  submitted : r.process ≠ none → u.process ≠ none
  unsubmitted : (∀ lookup, a ≠ .submit lookup) → r.process = none → u.process = none
  unprocessed : ∀ lookup, a = .submit lookup → r.process = none
  queued : u.queued → r.queued ∨ ∃ g, a.api = some g ∧ selfLocked r.xreq g = false
  api : a.api ≠ none → ∃ lookup, a = .submit lookup

/-- An action that is no submission. -/
theorem Moved.of_other {r u : State J} {a : Action J} (ha : ∀ lookup, a ≠ .submit lookup)
    (hcallers : u.xreq.callers = r.xreq.callers) (husers : (u.users : Int) = r.users + a.references)
    (hprocess : u.process = none ↔ r.process = none) (hqueued : u.queued → r.queued) : Moved r a u where
  callers := hcallers
  users := husers
  submitted := mt hprocess.mp
  unsubmitted _ := hprocess.mpr
  unprocessed lookup h := absurd h (ha lookup)
  queued h := .inl (hqueued h)
  api h := by
    cases a with
    | submit lookup => exact ⟨lookup, rfl⟩
    | _ => exact absurd rfl h

private theorem moved {r u : State J} {a : Action J} (h : step r a = some u) : Moved r a u := by
  cases a with
  | addref =>
    obtain ⟨-, h⟩ := Option.ite_none_right_eq_some.mp h
    cases h
    exact .of_other (fun _ h => by cases h) rfl rfl Iff.rfl id
  | unref =>
    obtain ⟨hu, h⟩ := Option.ite_none_right_eq_some.mp h
    cases h
    exact .of_other (fun _ h => by cases h) (unref_callers _) (by simp only [Action.references]; omega) Iff.rfl id
  | reply answer =>
    obtain ⟨-, h⟩ := Option.ite_none_right_eq_some.mp h
    cases h
    exact .of_other (fun _ h => by cases h) (afbXreqReply_callers _ _) (Int.add_zero _).symm Iff.rfl id
  | submit lookup =>
    obtain ⟨⟨hp, hu⟩, h⟩ := Option.ite_none_right_eq_some.mp h
    cases h
    refine ⟨rfl, by simp only [Action.references]; omega, fun h => absurd hp h, fun h => absurd rfl (h lookup),
      fun _ _ => hp, fun hq => ?_, fun _ => ⟨lookup, rfl⟩⟩
    rcases hq with hj | hq
    · exact .inl (.inl hj)
    · cases lookup with
      | failed errno message =>
        simp only [afbXreqProcess, Option.getD_some] at hq
        split_ifs at hq <;> simp [earlyFailure] at hq
      | found g =>
        refine .inr ⟨g, rfl, ?_⟩
        by_contra hlocked
        rw [Bool.not_eq_false] at hlocked
        simp [afbXreqProcess, hlocked, earlyFailure] at hq
  | process hookflags mem queued =>
    simp only [step] at h
    split at h
    · rename_i rest hp
      cases queued
      all_goals
        cases h
        exact .of_other (fun _ h => by cases h) rfl (Int.add_zero _).symm (by simp [hp]) fun _ => .inr (by simp [hp])
    · rename_i i rest hi hp
      cases h
      refine .of_other (fun _ h => by cases h) (runInstr_callers _ _ _ _) (Int.add_zero _).symm (by simp [hp])
        fun hq => hq.imp_right fun hq => ?_
      rw [hp]
      exact List.mem_cons_of_mem i hq
    all_goals cases h
  | job hookflags mem =>
    simp only [step] at h
    split at h
    · rename_i i rest hj
      cases h
      exact .of_other (fun _ h => by cases h) (runInstr_callers _ _ _ _) (Int.add_zero _).symm Iff.rfl
        fun _ => .inl (by simp [hj])
    · cases h
  | signal sig =>
    obtain ⟨⟨hj, -⟩, h⟩ := Option.ite_none_right_eq_some.mp h
    cases h
    exact .of_other (fun _ h => by cases h) rfl (Int.add_zero _).symm Iff.rfl fun _ => .inl hj

/-- The state is one of a run of the request alone. -/
def State.Reached (r : State J) : Prop :=
  ∃ callers api verb acts, exec step (.init callers api verb) acts = some r

private theorem State.Reached.step {r u : State J} {a : Action J} (hr : r.Reached)
    (h : Request.step r a = some u) :
    u.Reached := by
  obtain ⟨callers, api, verb, acts, hacts⟩ := hr
  exact ⟨callers, api, verb, acts ++ [a], by rw [exec_append hacts]; exact exec_cons.mpr ⟨u, h, rfl⟩⟩

theorem State.Reached.inv {r : State J} (h : r.Reached) : Inv r := by
  obtain ⟨callers, api, verb, acts, hacts⟩ := h
  exact exec_keeps (fun _ a _ hi h => inv_step hi a h) (inv_init callers api verb) hacts

/-- Nothing uses a request that is finalised. -/
theorem step_finalised {r : State J} (hi : Inv r) (h : r.xreq.refcount = 0) (a : Action J) : step r a = none := by
  have hnone : ¬(0 < r.users ∨ r.process.getD [] ≠ [] ∨ r.job ≠ []) := fun hheld => by
    have hpos := hi.referenced hheld
    omega
  simp only [not_or, not_not, Nat.not_lt, Nat.le_zero, ne_eq] at hnone
  obtain ⟨hu, hp, hj⟩ := hnone
  have husable : ¬r.usable := by simp [State.usable, hu, hj]
  cases a with
  | addref => exact if_neg husable
  | unref => exact if_neg (by omega)
  | reply answer => exact if_neg husable
  | submit lookup => exact if_neg fun h => by omega
  | process hookflags mem queued =>
    rw [step]
    cases hprocess : r.process with
    | none => rfl
    | some l =>
      rw [hprocess, Option.getD_some] at hp
      rw [hp]
  | job hookflags mem => rw [step, hj]
  | signal sig => exact if_neg fun h => h.1 hj

/-! What holds of the forest. -/

/-- What holds of a request by its own fields; one more reference to the place may be on its way. -/
structure Node.Own (s : Forest J) (more : Option Nat) (i : Nat) (n : Node J) : Prop where
  reached : n.request.Reached
  users : n.request.users = n.own + n.sync.references + subcalls s i + if more = some i then 1 else 0
  released : n.released = true → n.request.xreq.refcount = 0
  fresh : n.request.process = none → n.called = false
  entering : n.sync = .entering → n.request.process = none
  accepted : n.called = true ∨ n.request.queued → ∃ g, n.group = some g ∧ selfLocked n.request.xreq g = false

/-- The caller stands before, it is called, and its callers are those of the request after itself. -/
structure Node.Linked (s : Forest J) (i : Nat) (n : Node J) : Prop where
  root : n.caller = none → n.request.xreq.callers = []
  caller : ∀ c, n.caller = some c → c < i ∧ ∃ m, s[c]? = some m ∧ m.called = true ∧
    n.request.xreq.callers = m.group.getD none :: m.request.xreq.callers

structure Sound (s : Forest J) (more : Option Nat) : Prop where
  own : ∀ (i : Nat) (n : Node J), s[i]? = some n → n.Own s more i
  linked : ∀ (i : Nat) (n : Node J), s[i]? = some n → n.Linked s i

section
variable {s t : Forest J} {more more' : Option Nat} {i c : Nat} {n n' : Node J} {a : Action J} {r : State J}

private theorem getElem_set (hn : s[i]? = some n) (n' : Node J) (j : Nat) :
    (s.set i n')[j]? = if j = i then some n' else s[j]? := by
  obtain ⟨hi, -⟩ := List.getElem?_eq_some_iff.mp hn
  rw [List.getElem?_set]
  by_cases hj : j = i
  · rw [if_pos hj, if_pos hj.symm, if_pos hi]
  · rw [if_neg hj, if_neg (Ne.symm hj)]

theorem Sound.earlier (hs : Sound s more) : Earlier Node.caller s := fun i n hn c hc =>
  ((hs.linked i n hn).caller c hc).1

private theorem sound_set (hs : Sound s more) (hn : s[i]? = some n) (hcaller : n'.caller = n.caller)
    (hcallers : n'.request.xreq.callers = n.request.xreq.callers)
    (hcalled : n.called = true → n'.called = true ∧ n'.group = n.group)
    (hsubcalls : ∀ j, j ≠ i → subcalls (s.set i n') j + (if more' = some j then 1 else 0) =
      subcalls s j + if more = some j then 1 else 0)
    (hown : n'.Own (s.set i n') more' i) : Sound (s.set i n') more' := by
  constructor
  · intro j m hm
    rw [getElem_set hn] at hm
    by_cases hj : j = i
    · rw [if_pos hj, Option.some.injEq] at hm
      rw [hj, ← hm]
      exact hown
    · rw [if_neg hj] at hm
      have ho := hs.own j m hm
      refine ⟨ho.reached, ?_, ho.released, ho.fresh, ho.entering, ho.accepted⟩
      have husers := ho.users
      have hsub := hsubcalls j hj
      omega
  · have hlinked (j : Nat) (m : Node J) (hl : m.Linked s j) : m.Linked (s.set i n') j := by
      refine ⟨hl.root, fun c hc => ?_⟩
      obtain ⟨hlt, k, hk, hcalledk, hk'⟩ := hl.caller c hc
      refine ⟨hlt, ?_⟩
      rw [getElem_set hn]
      by_cases hci : c = i
      · rw [hci, hn, Option.some.injEq] at hk
        rw [← hk] at hcalledk hk'
        obtain ⟨hcalled', hgroup⟩ := hcalled hcalledk
        exact ⟨n', if_pos hci, hcalled', by rw [hgroup, hcallers, hk']⟩
      · exact ⟨k, by rw [if_neg hci, hk], hcalledk, hk'⟩
    intro j m hm
    rw [getElem_set hn] at hm
    by_cases hj : j = i
    · rw [if_pos hj, Option.some.injEq] at hm
      have hl := hs.linked i n hn
      rw [hj, ← hm]
      exact hlinked i n' ⟨fun h => hcallers.trans (hl.root (hcaller.symm.trans h)), fun c hc => by
        rw [hcallers]
        exact hl.caller c (hcaller.symm.trans hc)⟩
    · rw [if_neg hj] at hm
      exact hlinked j m (hs.linked j m hm)

private theorem not_fresh (hs : Sound s more) (hn : s[i]? = some n) (h : n.called = true ∨ n.request.queued) :
    n.request.process ≠ none := by
  intro hp
  have ho := hs.own i n hn
  rcases h with h | h | h
  · rw [ho.fresh hp] at h
    exact absurd h Bool.false_ne_true
  · exact h (ho.reached.inv.unqueued (.inl hp))
  · rw [hp] at h
    cases h

private theorem no_api (hs : Sound s more) (hn : s[i]? = some n) (hm : Moved n.request a r)
    (h : n.called = true ∨ n.request.queued) : a.api = none := by
  by_contra hapi
  obtain ⟨lookup, ha⟩ := hm.api hapi
  exact not_fresh hs hn h (hm.unprocessed lookup ha)

private theorem selfLocked_congr {x y : Xreq J} (h : x.callers = y.callers) (g : Option Group) :
    selfLocked x g = selfLocked y g := by
  rw [selfLocked, selfLocked, h]

private theorem accepted_after (hs : Sound s more) (hn : s[i]? = some n) (hm : Moved n.request a r)
    (h : (n.after a r).called = true ∨ r.queued) :
    ∃ g, (n.after a r).group = some g ∧ selfLocked r.xreq g = false := by
  have hsame (hold : n.called = true ∨ n.request.queued) :
      ∃ g, (n.after a r).group = some g ∧ selfLocked r.xreq g = false := by
    obtain ⟨g, hg, hfree⟩ := (hs.own i n hn).accepted hold
    refine ⟨g, ?_, (selfLocked_congr hm.callers g).trans hfree⟩
    rw [Node.after, no_api hs hn hm hold]
    exact hg
  have hqueued (hq : r.queued) : ∃ g, (n.after a r).group = some g ∧ selfLocked r.xreq g = false := by
    rcases hm.queued hq with hold | ⟨g, hg, hfree⟩
    · exact hsame (.inr hold)
    · refine ⟨g, ?_, (selfLocked_congr hm.callers g).trans hfree⟩
      rw [Node.after, hg]
      rfl
  rcases h with h | h
  · rw [Node.after, Bool.or_eq_true, decide_eq_true_eq] at h
    rcases h with h | h
    · exact hsame (.inl h)
    · refine hqueued (.inl fun hj => ?_)
      rw [hj] at h
      cases h
  · exact hqueued h

private theorem subcalls_set_same (n' : Node J) (hn : s[i]? = some n) (hcaller : n'.caller = n.caller)
    (hreleased : n'.released = n.released) (c : Nat) : subcalls (s.set i n') c = subcalls s c :=
  children_set_same _ _ hn (by rw [hreleased]) hcaller c

/-- An action keeps what holds, when the references of the users follow. -/
theorem sound_act (hs : Sound s more) (hn : s[i]? = some n) (hr : step n.request a = some r) (own : Nat)
    (sync : Sync)
    (husers : ((own + sync.references + if more' = some i then 1 else 0 : Nat) : Int) =
      (n.own + n.sync.references + if more = some i then 1 else 0 : Nat) + a.references)
    (hentering : sync = .entering → n.sync = .entering ∧ ∀ lookup, a ≠ .submit lookup)
    (hmore : ∀ j, j ≠ i → (more' = some j ↔ more = some j)) :
    Sound (s.set i { n.after a r with own, sync }) more' := by
  have hm := moved hr
  have ho := hs.own i n hn
  have hsub := subcalls_set_same { n.after a r with own, sync } hn rfl rfl
  refine sound_set hs hn rfl hm.callers (fun hcalled => ⟨?_, ?_⟩) (fun j hj => ?_) ⟨ho.reached.step hr, ?_,
    fun hreleased => ?_, fun hp => ?_, fun hsync => ?_, accepted_after hs hn hm⟩
  · simp [Node.after, hcalled]
  · simp [Node.after, no_api hs hn hm (.inl hcalled)]
  · simp only [hsub, hmore j hj]
  · have hcount := ho.users
    have hmoved := hm.users
    have hrequest : ({ n.after a r with own, sync } : Node J).request = r := rfl
    rw [hsub, hrequest]
    dsimp only
    omega
  · rw [step_finalised ho.reached.inv (ho.released hreleased)] at hr
    cases hr
  · have hold : n.request.process = none := by
      by_contra hne
      exact hm.submitted hne hp
    have hjob : r.job = [] := (ho.reached.step hr).inv.unqueued (.inl hp)
    simp [Node.after, ho.fresh hold, hjob]
  · obtain ⟨hsync, hsubmit⟩ := hentering hsync
    exact hm.unsubmitted hsubmit (ho.entering hsync)

theorem act_some {guard : Node J → Bool} {f : Node J → Node J} (h : s.act i a guard f = some t) :
    ∃ n r, s[i]? = some n ∧ guard n = true ∧ step n.request a = some r ∧ t = s.set i (f (n.after a r)) := by
  obtain ⟨n, hn, h⟩ := Option.bind_eq_some_iff.mp h
  obtain ⟨hg, h⟩ := Option.ite_none_right_eq_some.mp h
  obtain ⟨r, hr, rfl⟩ := Option.map_eq_some_iff.mp h
  exact ⟨n, r, hn, hg, hr, rfl⟩

/-- A new request is at its place, and it is a subcall of the one that the reference is for. -/
theorem sound_create (hs : Sound s more) (callers : List (Option Group)) (sync : Bool) (api verb : String)
    (hlinked : (Node.create more callers sync api verb : Node J).Linked s s.length) :
    Sound (s ++ [.create more callers sync api verb]) none := by
  have hget (j : Nat) (m : Node J) (hm : (s ++ [.create more callers sync api verb])[j]? = some m) :
      s[j]? = some m ∨ j = s.length ∧ m = .create more callers sync api verb := by
    rcases Nat.lt_trichotomy j s.length with hj | hj | hj
    · rw [List.getElem?_append_left hj] at hm
      exact .inl hm
    · subst hj
      simp only [List.getElem?_concat_length, Option.some.injEq] at hm
      exact .inr ⟨rfl, hm.symm⟩
    · rw [List.getElem?_eq_none (by simp; omega)] at hm
      cases hm
  have hkeep (j : Nat) (m : Node J) (hl : m.Linked s j) :
      m.Linked (s ++ [.create more callers sync api verb]) j := by
    refine ⟨hl.root, fun c hc => ?_⟩
    obtain ⟨hlt, k, hk, hrest⟩ := hl.caller c hc
    obtain ⟨hlen, -⟩ := List.getElem?_eq_some_iff.mp hk
    exact ⟨hlt, k, by rw [List.getElem?_append_left hlen, hk], hrest⟩
  have hsub (j : Nat) : subcalls (s ++ [.create more callers sync api verb]) j =
      subcalls s j + if more = some j then 1 else 0 := by
    have happend := children_append Node.caller (fun n => !n.released) s
      (Node.create more callers sync api verb : Node J) j
    simpa [Node.create, subcalls] using happend
  constructor
  · intro j m hm
    rcases hget j m hm with hm | ⟨rfl, rfl⟩
    · have ho := hs.own j m hm
      refine ⟨ho.reached, ?_, ho.released, ho.fresh, ho.entering, ho.accepted⟩
      rw [hsub, ho.users]
      simp [Nat.add_assoc]
    · have hlast : subcalls s s.length = 0 := by
        by_contra hne
        obtain ⟨k, hk, -, hcaller⟩ := children_pos.mp (Nat.pos_of_ne_zero hne)
        obtain ⟨j, hj⟩ := List.mem_iff_getElem?.mp hk
        obtain ⟨hlen, -⟩ := List.getElem?_eq_some_iff.mp hj
        have hlt := hs.earlier j k hj _ hcaller
        omega
      have hself : more ≠ some s.length := fun h => Nat.lt_irrefl _ (hlinked.caller s.length h).1
      cases sync with
      | false =>
        refine ⟨⟨callers, api, verb, [], rfl⟩, ?_, fun h => absurd h Bool.false_ne_true, fun _ => rfl,
          fun h => (by cases h), fun h => ?_⟩
        · rw [hsub, hlast, if_neg hself]
          rfl
        · simp [Node.create, State.queued, State.init] at h
      | true =>
        refine ⟨⟨callers, api, verb, [.addref], rfl⟩, ?_, fun h => absurd h Bool.false_ne_true, fun _ => rfl,
          fun _ => rfl, fun h => ?_⟩
        · rw [hsub, hlast, if_neg hself]
          rfl
        · simp [Node.create, State.queued, State.kept, State.init] at h
  · intro j m hm
    rcases hget j m hm with hm | ⟨rfl, rfl⟩
    · exact hkeep j m (hs.linked j m hm)
    · exact hkeep s.length _ hlinked

private theorem sound_release (hs : Sound s none) (hn : s[i]? = some n) (hc : n.caller = some c)
    (hzero : n.request.xreq.refcount = 0) (hfirst : n.released = false) :
    Sound (s.set i { n with released := true }) (some c) := by
  have ho := hs.own i n hn
  have hlt := hs.earlier i n hn c hc
  have hsub (j : Nat) : subcalls (s.set i { n with released := true }) j + (if some c = some j then 1 else 0) =
      subcalls s j := by
    have hset := children_set Node.caller (fun n => !n.released) hn { n with released := true } j
    simpa [hfirst, hc, subcalls] using hset
  refine sound_set hs hn rfl rfl (fun h => ⟨h, rfl⟩) (fun j _ => by simpa using hsub j)
    ⟨ho.reached, ?_, fun _ => hzero, ho.fresh, ho.entering, ho.accepted⟩
  have hi := hsub i
  have hcount := ho.users
  simp only [reduceCtorEq, if_false] at hcount
  dsimp only
  omega

theorem sound_step {a : ForestAction J} (hs : Sound s none) (h : s.step a = some t) : Sound t none := by
  have hkeep (i : Nat) (a : Action J) (ha : a.references = 0) (hsubmit : ∀ lookup, a ≠ .submit lookup)
      (guard : Node J → Bool) (h : s.act i a guard id = some t) : Sound t none := by
    obtain ⟨n, r, hn, -, hr, rfl⟩ := act_some h
    exact sound_act hs hn hr n.own n.sync (by rw [ha, Int.add_zero]) (fun he => ⟨he, hsubmit⟩) fun _ _ => Iff.rfl
  cases a with
  | create caller sync api verb =>
    cases caller with
    | none =>
      cases h
      exact sound_create hs [] sync api verb ⟨fun _ => by cases sync <;> rfl, fun _ h => (by cases h)⟩
    | some c =>
      obtain ⟨m, hm, h⟩ := Option.bind_eq_some_iff.mp h
      obtain ⟨u, hu, rfl⟩ := Option.map_eq_some_iff.mp h
      obtain ⟨m', r, hm', hguard, hr, rfl⟩ := act_some hu
      rw [hm, Option.some.injEq] at hm'
      subst hm'
      obtain ⟨hcalled, -⟩ := Bool.and_eq_true_iff.mp hguard
      have hs' : Sound (s.set c (m.after .addref r)) (some c) :=
        sound_act hs hm hr m.own m.sync (by simp [Action.references]) (fun he => ⟨he, fun _ h => (by cases h)⟩)
          fun j hj => by simp [Ne.symm hj]
      obtain ⟨hlen, -⟩ := List.getElem?_eq_some_iff.mp hm
      refine sound_create hs' _ sync api verb ⟨fun h => (by cases h), fun d hd => ?_⟩
      cases hd
      refine ⟨by rwa [List.length_set], m.after .addref r, by rw [getElem_set hm, if_pos rfl], ?_, ?_⟩
      · simp [Node.after, hcalled]
      · have hcallers : (Node.create (some c) (m.group.getD none :: m.request.xreq.callers) sync api verb :
            Node J).request.xreq.callers = m.group.getD none :: m.request.xreq.callers := by
          cases sync <;> rfl
        rw [hcallers]
        exact congrArg _ (moved hr).callers.symm
  | addref i =>
    rw [Forest.step] at h
    obtain ⟨n, r, hn, -, hr, rfl⟩ := act_some h
    exact sound_act hs hn hr (n.own + 1) n.sync (by simp only [Action.references, reduceCtorEq, if_false]; omega)
      (fun he => ⟨he, fun _ h => (by cases h)⟩)
      fun _ _ => Iff.rfl
  | unref i =>
    rw [Forest.step] at h
    obtain ⟨n, r, hn, hown, hr, rfl⟩ := act_some h
    rw [decide_eq_true_eq] at hown
    exact sound_act hs hn hr (n.own - 1) n.sync (by simp only [Action.references, reduceCtorEq, if_false]; omega)
      (fun he => ⟨he, fun _ h => (by cases h)⟩)
      fun _ _ => Iff.rfl
  | reply i answer => exact hkeep i (.reply answer) rfl (fun _ h => by cases h) _ h
  | submit i lookup =>
    rw [Forest.step] at h
    obtain ⟨n, r, hn, hheld, hr, rfl⟩ := act_some h
    rw [decide_eq_true_eq] at hheld
    by_cases hsync : n.sync = .entering
    · rw [if_pos (show (n.after (.submit lookup) r).sync = .entering from hsync)]
      exact sound_act hs hn hr n.own .entered (by simp [Action.references, Sync.references, hsync]; omega)
        (fun h => by cases h) fun _ _ => Iff.rfl
    · rw [if_neg (show (n.after (.submit lookup) r).sync ≠ .entering from hsync)]
      have hown := hheld.resolve_right hsync
      exact sound_act hs hn hr (n.own - 1) n.sync (by simp [Action.references]; omega) (fun he => absurd he hsync)
        fun _ _ => Iff.rfl
  | fail i =>
    obtain ⟨n, hn, h⟩ := Option.bind_eq_some_iff.mp h
    obtain ⟨hsync, h⟩ := Option.ite_none_right_eq_some.mp h
    cases h
    have ho := hs.own i n hn
    have hsub := subcalls_set_same { n with sync := .failed } hn rfl rfl
    refine sound_set hs hn rfl rfl (fun h => ⟨h, rfl⟩) (fun j _ => by rw [hsub])
      ⟨ho.reached, ?_, ho.released, ho.fresh, fun h => (by cases h), ho.accepted⟩
    rw [hsub, ho.users, hsync]
    rfl
  | abort i =>
    rw [Forest.step] at h
    obtain ⟨n, r, hn, hsync, hr, rfl⟩ := act_some h
    rw [decide_eq_true_eq] at hsync
    exact sound_act hs hn hr n.own .failed (by simp [Action.references, Sync.references, hsync])
      (fun h => by cases h) fun _ _ => Iff.rfl
  | leave i =>
    rw [Forest.step] at h
    obtain ⟨n, r, hn, hsync, hr, rfl⟩ := act_some h
    rw [decide_eq_true_eq] at hsync
    refine sound_act hs hn hr n.own _ ?_ (fun he => ?_) fun _ _ => Iff.rfl
    · rcases hsync with ⟨hsync, -⟩ | hsync <;>
        simp only [Node.after, Action.references, Sync.references, hsync, if_true, if_false, reduceCtorEq] <;> omega
    · split_ifs at he
  | process i hookflags mem queued => exact hkeep i (.process hookflags mem queued) rfl (fun _ h => by cases h) _ h
  | job i hookflags mem => exact hkeep i (.job hookflags mem) rfl (fun _ h => by cases h) _ h
  | signal i sig => exact hkeep i (.signal sig) rfl (fun _ h => by cases h) _ h
  | release i =>
    obtain ⟨n, hn, h⟩ := Option.bind_eq_some_iff.mp h
    obtain ⟨c, hc, h⟩ := Option.bind_eq_some_iff.mp h
    obtain ⟨⟨hzero, hfirst⟩, h⟩ := Option.ite_none_right_eq_some.mp h
    obtain ⟨m, r, hm, -, hr, rfl⟩ := act_some h
    have hs' := sound_release hs hn hc hzero hfirst
    exact sound_act hs' hm hr m.own m.sync (by simp only [Action.references, if_true, reduceCtorEq, if_false]; omega)
      (fun he => ⟨he, fun _ h => (by cases h)⟩)
      fun j hj => by simp [Ne.symm hj]

theorem sound_run {as : List (ForestAction J)} (h : exec Forest.step [] as = some s) : Sound s none := by
  have hstart : Sound ([] : Forest J) none := ⟨fun i n h => by simp at h, fun i n h => by simp at h⟩
  exact exec_keeps (fun _ _ _ hs h => sound_step hs h) hstart h

end

section
variable {s t : Forest J} {i c : Nat} {n m : Node J}

theorem Sound.refcount (hs : Sound s none) (hn : s[i]? = some n) :
    n.request.xreq.refcount = n.own + n.sync.references + subcalls s i + held (n.request.process.getD []) +
      held n.request.job := by
  have husers := (hs.own i n hn).users
  simp only [reduceCtorEq, if_false, Nat.add_zero] at husers
  rw [(hs.own i n hn).reached.inv.count, husers]
  push_cast
  rfl

private theorem Sound.caller_alive (hs : Sound s none) (hn : s[i]? = some n) (hc : n.caller = some c)
    (hm : s[c]? = some m) (hkept : n.released = false) : 0 < m.request.users := by
  have hpos : 0 < subcalls s c :=
    children_pos.mpr ⟨n, List.mem_of_getElem? hn, by rw [hkept]; rfl, hc⟩
  have husers := (hs.own c m hm).users
  omega

/-- A finalised request can release its caller. -/
theorem Sound.release_enabled (hs : Sound s none) (hn : s[i]? = some n) (hzero : n.request.xreq.refcount = 0)
    (hcaller : n.caller.isSome = true) (hkept : n.released = false) : ∃ t, s.step (.release i) = some t := by
  obtain ⟨c, hc⟩ := Option.isSome_iff_exists.mp hcaller
  obtain ⟨hlt, m, hm, -⟩ := (hs.linked i n hn).caller c hc
  have halive := hs.caller_alive hn hc hm hkept
  have hm' : (s.set i { n with released := true })[c]? = some m := by
    rw [getElem_set hn, if_neg (Nat.ne_of_lt hlt), hm]
  refine Option.isSome_iff_exists.mp ?_
  rw [Forest.step, hn, Option.bind_some, hc, Option.bind_some, if_pos ⟨hzero, hkept⟩, Forest.act, ← hc, hm',
    Option.bind_some, if_pos rfl, step, if_pos halive, Option.map_some]
  rfl

/-- A finalised request has no subcall that is not finalised, at any depth. -/
theorem Sound.below_finalised (hs : Sound s none) (hzero : ∀ n, s[i]? = some n → n.request.xreq.refcount = 0)
    {j : Nat} (hb : s.Below j i) (hm : s[j]? = some m) : m.request.xreq.refcount = 0 := by
  have hup : ∀ j c, Child Node.caller s j c → (∀ n, s[c]? = some n → n.request.xreq.refcount = 0) →
      ∀ m, s[j]? = some m → m.request.xreq.refcount = 0 := by
    rintro j c ⟨m, hm, hc⟩ hzero m' hm'
    rw [hm, Option.some.injEq] at hm'
    subst hm'
    obtain ⟨-, n, hn, -⟩ := (hs.linked j m hm).caller c hc
    by_contra hne
    have hkept : m.released = false := by
      by_contra hreleased
      exact hne ((hs.own j m hm).released (by simpa using hreleased))
    have hpos := (hs.own c n hn).reached.inv.referenced (.inl (hs.caller_alive hm hc hn hkept))
    have hz := hzero n hn
    omega
  exact below_up hup hb hzero m hm

/-- The callers that the request has are those of the walk. -/
theorem Sound.callers (hs : Sound s none) (hn : s[i]? = some n) : n.request.xreq.callers = s.stack i n.caller := by
  induction i using Nat.strongRecOn generalizing n with
  | _ i ih =>
    have hl := hs.linked i n hn
    cases hc : n.caller with
    | none => rw [hl.root hc, Forest.stack, walk_none, List.map_nil]
    | some c =>
      obtain ⟨hlt, m, hm, -, hcallers⟩ := hl.caller c hc
      rw [hcallers, ih c hlt hm, Forest.stack, Forest.stack, walk_enough hs.earlier hlt, walk, hm, Option.elim_some,
        List.map_cons]

private theorem Sound.groups_nodup (hs : Sound s none) (hn : s[i]? = some n)
    (h : n.called = true ∨ n.request.queued) :
    ((n.group.getD none :: n.request.xreq.callers).filterMap id).Nodup := by
  induction i using Nat.strongRecOn generalizing n with
  | _ i ih =>
    have hcallers : (n.request.xreq.callers.filterMap id).Nodup := by
      have hl := hs.linked i n hn
      cases hc : n.caller with
      | none =>
        rw [hl.root hc]
        exact List.nodup_nil
      | some c =>
        obtain ⟨hlt, m, hm, hcalled, hcallers⟩ := hl.caller c hc
        rw [hcallers]
        exact ih c hlt hm (.inl hcalled)
    obtain ⟨g, hg, hfree⟩ := (hs.own i n hn).accepted h
    rw [hg, Option.getD_some]
    cases g with
    | none => exact hcallers
    | some g =>
      refine List.nodup_cons.mpr ⟨fun hmem => ?_, hcallers⟩
      obtain ⟨g', hg', heq⟩ := List.mem_filterMap.mp hmem
      simp only [selfLocked, Option.isSome_some, Bool.true_and] at hfree
      rw [List.any_eq_false] at hfree
      exact hfree g' hg' (by simpa using heq)

end

/-- In every run of requests that call each other, each request is in a state of a run of its own, its
count is the number of the references of its users, of do_sync, of its subcalls that are not finalised
and of its processing, and its caller is referenced until it is finalised. Nothing can use a
finalised request, all its subcalls were answered and released, and it releases its caller. -/
theorem callers_outlive_subcalls (as : List (ForestAction J)) (s : Forest J) (h : exec Forest.step [] as = some s)
    (i : Nat) (n : Node J) (hn : s[i]? = some n) :
    n.request.Reached ∧
      n.request.xreq.refcount = n.own + n.sync.references + subcalls s i + held (n.request.process.getD []) +
        held n.request.job ∧
      (∀ c m, n.caller = some c → s[c]? = some m → n.released = false → 0 < m.request.xreq.refcount) ∧
      (n.request.xreq.refcount = 0 →
        (∀ a, step n.request a = none) ∧
        (∀ j m, s.Below j i → s[j]? = some m → answers m.request.xreq.events = [.reply, .unref]) ∧
        (n.caller.isSome = true → n.released = false → ∃ t, s.step (.release i) = some t)) := by
  have hs := sound_run h
  refine ⟨(hs.own i n hn).reached, hs.refcount hn, fun c m hc hm hkept => ?_, fun hzero => ⟨?_, fun j m hb hm => ?_,
    fun hcaller hkept => ?_⟩⟩
  · exact (hs.own c m hm).reached.inv.referenced (.inl (hs.caller_alive hn hc hm hkept))
  · exact step_finalised (hs.own i n hn).reached.inv hzero
  · have hi : ∀ k, s[i]? = some k → k.request.xreq.refcount = 0 := fun k hk => by
      rw [hn, Option.some.injEq] at hk
      rwa [← hk]
    have hz := hs.below_finalised hi hb hm
    rw [(hs.own j m hm).reached.inv.answers, due, if_pos hz]
  · exact hs.release_enabled hn hzero hcaller hkept

/-- A request of the api of group 3 is called, calls the api of group 4 and ends; then the
subcall is called and replies. -/
def sampleCalls : List (ForestAction Nat) :=
  [.create none false "first" "verb", .submit 0 (.found (some 3)), .process 0 false true true,
    .process 0 false true true, .process 0 false true true, .job 0 false true,
    .create (some 0) false "second" "verb", .job 0 false true, .job 0 false true,
    .submit 1 (.found (some 4)), .process 1 false true true, .process 1 false true true,
    .process 1 false true true, .job 1 false true, .reply 1 ⟨some 5, none, none⟩, .job 1 false true,
    .job 1 false true, .release 1]

theorem callers_outlive_subcalls_sample :
    ∃ n m, exec Forest.step [] sampleCalls = some [n, m] ∧ n.request.xreq.refcount = 0 ∧ m.caller = some 0 ∧
      answers m.request.xreq.events = [.reply, .unref] := by
  obtain ⟨n, m, hs, hzero, hcaller⟩ : ∃ n m, exec Forest.step [] sampleCalls = some [n, m] ∧
      n.request.xreq.refcount = 0 ∧ m.caller = some 0 :=
    ⟨_, _, rfl, rfl, rfl⟩
  obtain ⟨-, -, -, hend⟩ := callers_outlive_subcalls sampleCalls _ hs 0 n rfl
  exact ⟨n, m, hs, hzero, hcaller, (hend hzero).2.1 1 m (.single ⟨m, rfl, hcaller⟩) rfl⟩

/-- In every run a request that is queued or called has no group twice among its api and those of
the callers found by the walk of afb_xreq_process; and a request that is submitted is queued exactly
when the group of its api is not among those of its callers. Queued means that it is given, or still to
be given, to jobs_queue, which may fail. -/
theorem call_stack_groups_distinct (as : List (ForestAction J)) (s : Forest J)
    (h : exec Forest.step [] as = some s) (i : Nat) (n : Node J) (hn : s[i]? = some n) :
    (n.called = true ∨ n.request.queued → ((n.group.getD none :: s.stack i n.caller).filterMap id).Nodup) ∧
      ∀ g t u, s.step (.submit i (.found g)) = some t → t[i]? = some u →
        (u.request.queued ↔ ∀ b, g = some b → some b ∉ s.stack i n.caller) := by
  have hs := sound_run h
  refine ⟨fun hq => ?_, fun g t u ht hu => ?_⟩
  · rw [← hs.callers hn]
    exact hs.groups_nodup hn hq
  · rw [← hs.callers hn]
    rw [Forest.step] at ht
    obtain ⟨n', r, hn', -, hr, rfl⟩ := act_some ht
    rw [hn, Option.some.injEq] at hn'
    subst hn'
    have hr' : u.request = r := by
      rw [getElem_set hn, if_pos rfl, Option.some.injEq] at hu
      rw [← hu]
      split <;> rfl
    obtain ⟨⟨hp, -⟩, hr⟩ := Option.ite_none_right_eq_some.mp hr
    have hjob := (hs.own i n hn).reached.inv.unqueued (.inl hp)
    rw [hr', ← Option.some.inj hr]
    simp only [State.queued, hjob, ne_eq, not_true_eq_false, false_or, Option.getD_some, afbXreqProcess]
    cases g with
    | none => simp [selfLocked]
    | some g =>
      by_cases hlocked : some g ∈ n.request.xreq.callers
      · simp [selfLocked, hlocked, earlyFailure]
      · simp [selfLocked, hlocked]

/-- The subcall would call the api of its caller. -/
theorem call_stack_groups_distinct_sample :
    ∃ n m k, exec Forest.step [] (sampleCalls.take 9) = some [n, m] ∧
      Forest.step [n, m] (.submit 1 (.found (some 3))) = some [n, k] ∧
      Forest.stack [n, m] 1 m.caller = [some 3] ∧ ¬k.request.queued := by
  obtain ⟨n, m, k, hs, ht, hstack⟩ : ∃ n m k, exec Forest.step [] (sampleCalls.take 9) = some [n, m] ∧
      Forest.step [n, m] (.submit 1 (.found (some 3))) = some [n, k] ∧ Forest.stack [n, m] 1 m.caller = [some 3] :=
    ⟨_, _, _, rfl, rfl, rfl⟩
  have hqueued := (call_stack_groups_distinct (sampleCalls.take 9) _ hs 1 m rfl).2 (some 3) _ k ht rfl
  refine ⟨n, m, k, hs, ht, hstack, fun hq => hqueued.mp hq 3 rfl ?_⟩
  rw [hstack]
  exact List.mem_singleton.mpr rfl

end AfbBinder.Request
