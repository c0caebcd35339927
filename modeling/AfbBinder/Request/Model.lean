import Mathlib.Data.List.Basic

/-! A request: its count of references, the reply and the finaliser, with the two
activities that work on it, afb_xreq_process and the job process_async. An activity
is the list of the operations it still has to do; each operation is one step. -/
namespace AfbBinder.Request

abbrev Group := Nat

def ENOENT : Nat := 2

/-- Arguments of a reply; obj is the json object. -/
structure Reply (J : Type) where
  obj : Option J
  error : Option String
  info : Option String
  deriving DecidableEq, Repr

/-- The calls a request makes, in order: reply and unref of its query interface, the
unref of its caller, and the hooks. -/
inductive Event (J : Type) where
  | reply (r : Reply J)
  | unref
  | callerUnref
  | hookBegin
  | hookReply (r : Reply J)
  | hookEnd
  deriving DecidableEq, Repr

/-- The request; callers are the groups of the apis of its chain of callers, and hooked
tells whether its interface is the hooked one. -/
structure Xreq (J : Type) where
  refcount : Int
  replied : Bool
  hookflags : Bool
  hooked : Bool
  callers : List (Option Group)
  calledApi : String
  calledVerb : String
  events : List (Event J)
  deriving DecidableEq, Repr

variable {J : Type}

def afbXreqInit (callers : List (Option Group)) (api verb : String) : Xreq J :=
  ⟨1, false, false, false, callers, api, verb, []⟩

def Xreq.emit (x : Xreq J) (e : Event J) : Xreq J := { x with events := x.events ++ [e] }

def xreqReplyCb (x : Xreq J) (r : Reply J) : Xreq J :=
  if x.replied then x else { x with replied := true }.emit (.reply r)

def xreqHookedReplyCb (x : Xreq J) (r : Reply J) : Xreq J := xreqReplyCb (x.emit (.hookReply r)) r

/-- The reply of the interface of the request. -/
def afbXreqReply (x : Xreq J) (r : Reply J) : Xreq J :=
  if x.hooked then xreqHookedReplyCb x r else xreqReplyCb x r

def xreqFinalize (x : Xreq J) : Xreq J :=
  let x := if x.replied then x else afbXreqReply x ⟨none, some "error", some "no reply"⟩
  let x := if x.hookflags then x.emit .hookEnd else x
  let x := if x.callers = [] then x else x.emit .callerUnref
  x.emit .unref

def afbXreqUnhookedAddref (x : Xreq J) : Xreq J := { x with refcount := x.refcount + 1 }

def afbXreqUnhookedUnref (x : Xreq J) : Xreq J :=
  let x := { x with refcount := x.refcount - 1 }
  if x.refcount = 0 then xreqFinalize x else x

/-- hookflags is what afb_hook_init_xreq finds. -/
def initHooking (x : Xreq J) (hookflags : Bool) : Xreq J :=
  let x := { x with hookflags }
  if hookflags then { x with hooked := true }.emit .hookBegin else x

/-- The operations of the activities; replyV formats its information. -/
inductive Instr where
  | initHooking
  | replyV (error info : String)
  | addref
  | queue
  | call
  | unref
  deriving DecidableEq, Repr

/-- A signal with its number and its name. -/
structure Signal where
  signum : Nat
  name : String
  deriving DecidableEq, Repr

/-- What the job does, started normally or with a signal. -/
def processAsync : Option Signal → List Instr
  | some sig =>
    [.replyV "aborted" ("signal " ++ sig.name ++ "(" ++ toString sig.signum ++ ") caught"), .unref]
  | none => [.initHooking, .call, .unref]

def earlyFailure (status info : String) : List Instr := [.initHooking, .replyV status info]

/-- Result of afb_apiset_lookup_started: the group of the api, or the error. -/
inductive Lookup where
  | found (group : Option Group)
  | failed (errno : Nat) (message : String)
  deriving DecidableEq, Repr

/-- An api of the group is in the chain of callers. -/
def selfLocked (x : Xreq J) (group : Option Group) : Bool :=
  group.isSome && x.callers.any (· = group)

def afbXreqProcess (x : Xreq J) : Lookup → List Instr
  | .failed errno message =>
    (if errno = ENOENT then
      earlyFailure "unknown-api"
        ("api " ++ x.calledApi ++ " not found (for verb " ++ x.calledVerb ++ ")")
    else
      earlyFailure "bad-api-state" ("api " ++ x.calledApi ++ " not started correctly: " ++ message))
    ++ [.unref]
  | .found group =>
    if selfLocked x group then
      earlyFailure "self-locked" ("recursive self lock, API " ++ x.calledApi) ++ [.unref]
    else [.addref, .queue, .unref]

/-- What follows a failure of jobs_queue. -/
def notQueued : List Instr :=
  earlyFailure "cancelled" "not able to create a job for the task" ++ [.unref]

/-- One operation on the request; mem tells whether vasprintf succeeds. -/
def runInstr (x : Xreq J) (hookflags mem : Bool) : Instr → Xreq J
  | .initHooking => initHooking x hookflags
  | .replyV error info => afbXreqReply x ⟨none, some error, if mem then some info else none⟩
  | .addref => afbXreqUnhookedAddref x
  | .unref => afbXreqUnhookedUnref x
  | .queue | .call => x

/-- The request, the references its users hold, what is left of afb_xreq_process (none
before it is called) and of the job. -/
structure State (J : Type) where
  xreq : Xreq J
  users : Nat
  process : Option (List Instr)
  job : List Instr
  interrupted : Bool
  deriving DecidableEq, Repr

/-- A request just initialised by its creator, who has its reference. -/
def State.init (callers : List (Option Group)) (api verb : String) : State J :=
  ⟨afbXreqInit callers api verb, 1, none, [], false⟩

inductive Action (J : Type) where
  | addref
  | unref
  | reply (r : Reply J)
  | submit (lookup : Lookup)
  | process (hookflags mem queued : Bool)
  | job (hookflags mem : Bool)
  | signal (sig : Signal)

/-- Someone may use the request: the owner of a reference, or the api being called. -/
def State.usable (s : State J) : Prop := 0 < s.users ∨ s.job.head? = some .call

instance (s : State J) : Decidable s.usable := inferInstanceAs (Decidable (_ ∨ _))

/-- A caller of afb_xreq_process gives its reference. A job whose callback is stopped by
a signal, once, has its callback called again with that signal. -/
def step (s : State J) : Action J → Option (State J)
  | .addref =>
    if s.usable then some { s with xreq := afbXreqUnhookedAddref s.xreq, users := s.users + 1 }
    else none
  | .unref =>
    if 0 < s.users then
      some { s with xreq := afbXreqUnhookedUnref s.xreq, users := s.users - 1 }
    else none
  | .reply r => if s.usable then some { s with xreq := afbXreqReply s.xreq r } else none
  | .submit lookup =>
    if s.process = none ∧ 0 < s.users then
      some { s with users := s.users - 1, process := some (afbXreqProcess s.xreq lookup) }
    else none
  | .process hookflags mem queued =>
    match s.process with
    | some (.queue :: rest) =>
      if queued then some { s with process := some rest, job := processAsync none }
      else some { s with process := some (notQueued ++ rest) }
    | some (i :: rest) =>
      some { s with xreq := runInstr s.xreq hookflags mem i, process := some rest }
    | some [] | none => none
  | .job hookflags mem =>
    match s.job with
    | i :: rest => some { s with xreq := runInstr s.xreq hookflags mem i, job := rest }
    | [] => none
  | .signal sig =>
    if s.job ≠ [] ∧ s.interrupted = false then
      some { s with job := processAsync (some sig), interrupted := true }
    else none

end AfbBinder.Request
