import AfbBinder.Jobs.Model

/-! The calls of jobs_terminate over the scheduler: the other threads are stopped and joined, then
the jobs of the queue are kept or cancelled one by one. The mutex is released while the callback of
a cancelled job runs, and this callback may call the scheduler, and jobs_terminate, again. -/
namespace AfbBinder.Jobs
open Lib.Runs

/-- A call of jobs_terminate that has not returned. The others are the threads to join, depth is the
number of frames of the caller, garbage is what a frame that ran no job yet holds for its job. The
serial numbers of the waiting jobs are ghost: those of the jobs of the queue, once the other threads
have stopped, that no frame of the caller executes. -/
structure Call where
  others : List Nat
  depth : Nat
  joined : Bool
  garbage : Nat → Option Addr
  head : List Addr
  tail : Option Addr
  cancelling : Option Addr
  waiting : List Nat

/-- The calls of each thread, innermost first, the records given back to malloc, and the ghost list
of the jobs whose callback was called with SIGABRT. -/
structure Process where
  jobs : State
  calls : Nat → List Call
  freed : List Addr
  aborts : List Nat

def Process.start : Process := ⟨init, fun _ => [], [], []⟩

/-- The scan of the frames of the caller, for one whose recorded job is the one given. A frame
records its job when it takes it, and never resets it. -/
def stacked (garbage : Nat → Option Addr) : List Frame → Addr → Bool
  | [], _ => false
  | t :: upper, job => t.job.or (garbage upper.length) == some job || stacked garbage upper job

/-- tail->next = job -/
def linkAfter (queue : List Addr) (tail job : Addr) : List Addr :=
  if tail ∈ queue then queue.takeWhile (· ≠ tail) ++ [tail, job] else queue

def relink (s : State) (tail : Option Addr) (job : Addr) : State :=
  match tail with
  | some tail => { s with firstJob := linkAfter s.firstJob tail job }
  | none => { s with firstJob := [job] }

def stopAll (s : State) : State :=
  { s with
    allowed := 0
    threads := fun u => (s.threads u).map fun f => { f with stop := true } }

/-- The jobs of the queue that no frame of the thread executes. -/
def waitingFor (s : State) (t : Nat) : List Nat :=
  (s.firstJob.filter (· ∉ execs s t)).map fun a => (s.recs a).serial

namespace Process
variable (s : Process)

def setCalls (t : Nat) (l : List Call) : Process := { s with calls := Function.update s.calls t l }

/-- The thread is in no call, or in the callback of the job that its last call cancels. -/
def free (t : Nat) : Bool :=
  match s.calls t with
  | [] => true
  | c :: _ => c.cancelling.isSome

/-- The frame of the thread that is on top is above its calls. -/
def above (t : Nat) : Bool :=
  match s.calls t with
  | [] => true
  | c :: _ => c.cancelling.isSome && c.depth < (s.jobs.threads t).length

/-- A thread in a call acts from the callback of the job that is cancelled. -/
def enabled : Action → Bool
  | .doSync t _ _ _ _ => s.free t
  | .startJob t _ _ => s.free t
  | .threadMain t => (s.calls t).isEmpty
  | .take t => s.above t
  | .release t => s.above t
  | .idle t _ => s.above t
  | .wake t => s.above t
  | .exit t => s.above t
  | _ => true

/-- The first section of jobs_terminate. The threads to join are given: in the source, they are all
the other threads that are in a call of thread_run. -/
def terminate (t : Nat) (others : List Nat) : Option Process :=
  if callsBack (s.jobs.threads t) ∧ s.free t ∧ ∀ u ∈ others, u ≠ t ∧ s.jobs.threads u ≠ [] then
    some ({ s with jobs := stopAll s.jobs }.setCalls t
      (⟨others, (s.jobs.threads t).length, false, fun _ => none, [], none, none, []⟩ :: s.calls t))
  else none

/-- The threads to join have ended: the queue becomes the list to go through. -/
def join (t : Nat) (garbage : Nat → Option Addr) : Option Process :=
  match s.calls t with
  | c :: outer =>
    if c.joined = false ∧ ∀ u ∈ c.others, s.jobs.threads u = [] then
      some ({ s with jobs := { s.jobs with remains := 0, firstJob := [] } }.setCalls t
        ({ c with
          joined := true
          garbage := garbage
          head := s.jobs.firstJob
          waiting := waitingFor s.jobs t } :: outer))
    else none
  | [] => none

/-- One job of the list: it is linked again, or its callback is called with SIGABRT. -/
def next (t : Nat) : Option Process :=
  match s.calls t with
  | c :: outer =>
    match c.head with
    | job :: rest =>
      if c.joined ∧ c.cancelling = none then
        if stacked c.garbage (s.jobs.threads t) job then
          some ({ s with jobs := relink s.jobs c.tail job }.setCalls t
            ({ c with head := rest, tail := some job } :: outer))
        else some ({ s with aborts := s.aborts ++ [(s.jobs.recs job).serial] }.setCalls t
          ({ c with head := rest, cancelling := some job } :: outer))
      else none
    | [] => none
  | [] => none

/-- The callback has returned. -/
def cancelled (t : Nat) : Option Process :=
  match s.calls t with
  | c :: outer =>
    match c.cancelling with
    | some job =>
      if (s.jobs.threads t).length = c.depth then
        some ({ s with freed := job :: s.freed }.setCalls t ({ c with cancelling := none } :: outer))
      else none
    | none => none
  | [] => none

def leave (t : Nat) : Option Process :=
  match s.calls t with
  | c :: outer =>
    if c.joined ∧ c.head = [] ∧ c.cancelling = none then some (s.setCalls t outer) else none
  | [] => none

end Process

/-- The sections of the scheduler and those of jobs_terminate; malloc may give back a freed record. -/
inductive Act where
  | jobs (x : Action)
  | reuse (job : Addr)
  | terminate (t : Nat) (others : List Nat)
  | join (t : Nat) (garbage : Nat → Option Addr)
  | next (t : Nat)
  | cancelled (t : Nat)
  | leave (t : Nat)

def act (s : Process) : Act → Option Process
  | .jobs x => if s.enabled x then (step s.jobs x).map fun u => { s with jobs := u } else none
  | .reuse job =>
    if s.jobs.freeJobs = [] ∧ job ∈ s.freed then
      some { s with
        jobs := { s.jobs with mallocs := job :: s.jobs.mallocs }
        freed := s.freed.erase job }
    else none
  | .terminate t others => s.terminate t others
  | .join t garbage => s.join t garbage
  | .next t => s.next t
  | .cancelled t => s.cancelled t
  | .leave t => s.leave t

end AfbBinder.Jobs
