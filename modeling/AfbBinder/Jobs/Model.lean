import Mathlib.Logic.Function.Basic
import Mathlib.Data.List.Basic
import AfbBinder.Lib.Runs
import AfbBinder.Lib.Words

/-! The job queue and the threads that serve it, one action for each section
executed with the mutex held. Signals and jobs_terminate are not modelled. -/
namespace AfbBinder.Jobs

/-- Address of a job record. -/
abbrev Addr := Nat

/-- A job record. The serial number is ghost: it names the queued request, while
the record itself is recycled from one request to the next. -/
structure Job where
  group : Option Nat
  timeout : Int
  callback : Nat
  blocked : Bool
  serial : Nat
  deriving DecidableEq, Repr

/-- Where a call of thread_run stands when its thread does not hold the mutex. -/
inductive Phase where
  | loop
  | run (job : Addr)
  | events
  | waits
  deriving DecidableEq, Repr

/-- The struct thread of one call of thread_run, with the caller: thread_main or not. -/
structure Frame where
  main : Bool
  job : Option Addr
  stop : Bool
  phase : Phase
  deriving DecidableEq, Repr

/-- Ghost history of the requests. -/
inductive Event where
  | queued (serial : Nat) (group : Option Nat)
  | started (serial : Nat) (group : Option Nat)
  | finished (serial : Nat)
  deriving DecidableEq, Repr

/-- The static variables of the scheduler, the memory of job records and, for
each thread, the stack of its thread_run calls, innermost first. -/
structure State where
  recs : Addr → Job
  firstJob : List Addr
  freeJobs : List Addr
  mallocs : List Addr
  brk : Addr
  allowed : Int
  started : Int
  running : Int
  remains : Int
  creating : Nat
  threads : Nat → List Frame
  serial : Nat
  history : List Event

def init : State where
  recs _ := ⟨none, 0, 0, false, 0⟩
  firstJob := []
  freeJobs := []
  mallocs := []
  brk := 0
  allowed := 0
  started := 0
  running := 0
  remains := 0
  creating := 0
  threads _ := []
  serial := 0
  history := []

/-- Take a record from the free list, or the given one that malloc returned while
the mutex was released, and initialise it. -/
def jobCreate (s : State) (fresh : Option Addr) (group : Option Nat) (timeout : Int)
    (callback : Nat) : Option (Addr × State) :=
  match fresh, s.freeJobs with
  | none, [] => none
  | none, a :: rest => some (a, { s with
      freeJobs := rest
      recs := Function.update s.recs a ⟨group, timeout, callback, false, s.serial⟩ })
  | some a, _ => if a ∈ s.mallocs then some (a, { s with
      mallocs := s.mallocs.erase a
      recs := Function.update s.recs a ⟨group, timeout, callback, false, s.serial⟩ }) else none

/-- Append the job, blocked when a job of the same group is in the queue. -/
def jobAdd (s : State) (a : Addr) : State :=
  let job := s.recs a
  let blocked := job.blocked ||
    s.firstJob.any fun i => job.group.isSome && (s.recs i).group == job.group
  { s with
    recs := Function.update s.recs a { job with blocked }
    firstJob := s.firstJob ++ [a]
    serial := s.serial + 1
    history := s.history ++ [.queued job.serial job.group] }

/-- The first job that is not blocked. -/
def jobGet (s : State) : Option Addr :=
  s.firstJob.find? fun a => !(s.recs a).blocked

/-- The first later job of the same group loses its blocked mark. -/
def unblock (recs : Addr → Job) (group : Option Nat) (after : List Addr) : Addr → Job :=
  match group with
  | none => recs
  | some _ =>
    match after.find? fun i => (recs i).group == group with
    | none => recs
    | some i => Function.update recs i { recs i with blocked := false }

/-- Unlink the job, unblock its group and recycle the record. The scan of the
source has no guard: it needs the job to be in the queue. -/
def jobRelease (s : State) (a : Addr) : Option State :=
  let before := s.firstJob.takeWhile (· ≠ a)
  match s.firstJob.dropWhile (· ≠ a) with
  | [] => none
  | _ :: after => some { s with
      recs := unblock s.recs (s.recs a).group after
      firstJob := before ++ after
      freeJobs := a :: s.freeJobs
      history := s.history ++ [.finished (s.recs a).serial] }

/-- Entry of thread_run: link a new struct thread over the current one. -/
def threadEnter (s : State) (t : Nat) (main : Bool) : State :=
  { s with
    started := if s.threads t = [] then s.started + 1 else s.started
    threads := Function.update s.threads t (⟨main, none, false, .loop⟩ :: s.threads t) }

/-- jobs_queue once its record is created; the flag is the result of pthread_create. -/
def jobsQueue (s : State) (fresh : Option Addr) (group : Option Nat) (timeout : Int)
    (callback : Nat) (created : Bool) : Option (Int × State) :=
  (jobCreate s fresh group timeout callback).map fun (a, s) =>
    let recycle (s : State) := { s with freeJobs := a :: s.freeJobs }
    if s.remains = 0 then (-1, recycle s)
    else
      let start := s.running = s.started ∧ s.started < s.allowed
      if start ∧ ¬ created ∧ s.started = 0 then (-1, recycle s)
      else
        let s := if start ∧ created then { s with creating := s.creating + 1 } else s
        (0, jobAdd { s with remains := s.remains - 1 } a)

/-- The callback of a running job, or of an event, may call back into the
scheduler, and so may a thread that is in no call of thread_run. -/
def callsBack : List Frame → Bool
  | [] => true
  | f :: _ => match f.phase with
    | .run _ => true
    | .events => true
    | _ => false

/-- do_sync, the body of jobs_call and jobs_enter. -/
def doSync (s : State) (t : Nat) (fresh : Option Addr) (group : Option Nat) (timeout : Int)
    (callback : Nat) : Option State :=
  if callsBack (s.threads t) then
    (jobCreate s fresh group timeout callback).map fun (a, s) => threadEnter (jobAdd s a) t false
  else none

def setTop (s : State) (t : Nat) (f : Frame) (rest : List Frame) : State :=
  { s with threads := Function.update s.threads t (f :: rest) }

/-- Sections of the scheduler. Every thread may be scheduled at any time; whether
an idle thread finds the event loop free is left open. -/
inductive Action where
  | malloc
  | jobsQueue (fresh : Option Addr) (group : Option Nat) (timeout : Int) (callback : Nat)
      (created : Bool)
  | doSync (t : Nat) (fresh : Option Addr) (group : Option Nat) (timeout : Int) (callback : Nat)
  | jobsStart (allowed starts waiters : Nat)
  | startJob (t : Nat) (fresh : Option Addr) (callback : Nat)
  | threadMain (t : Nat)
  | take (t : Nat)
  | release (t : Nat)
  | idle (t : Nat) (free : Bool)
  | wake (t : Nat)
  | jobsLeave (t depth : Nat)
  | exit (t : Nat)
  deriving DecidableEq, Repr

/-- One iteration of the loop of thread_run that finds a job. -/
def takeJob (s : State) (t : Nat) : Option State :=
  match s.threads t with
  | f :: rest =>
    if f.phase = .loop ∧ f.stop = false then
      (jobGet s).map fun a =>
        setTop { s with
          remains := s.remains + 1
          recs := Function.update s.recs a { s.recs a with blocked := true }
          history := s.history ++ [.started (s.recs a).serial (s.recs a).group] }
          t { f with job := some a, phase := .run a } rest
    else none
  | [] => none

/-- The callback returned: release the job and go back to the loop. -/
def releaseJob (s : State) (t : Nat) : Option State :=
  match s.threads t with
  | f :: rest => match f.phase with
    | .run a => (jobRelease s a).map fun s => setTop s t { f with phase := .loop } rest
    | _ => none
  | [] => none

/-- One iteration that finds no job: serve the event loop if it is free, else sleep. -/
def idle (s : State) (t : Nat) (free : Bool) : Option State :=
  match s.threads t with
  | f :: rest =>
    if f.phase = .loop ∧ f.stop = false ∧ jobGet s = none then
      if free then some (setTop s t { f with phase := .events } rest)
      else some (setTop { s with running := s.running - 1 } t { f with phase := .waits } rest)
    else none
  | [] => none

/-- Return from the event loop or from the condition variable. -/
def wake (s : State) (t : Nat) : Option State :=
  match s.threads t with
  | f :: rest => match f.phase with
    | .events => some (setTop s t { f with phase := .loop } rest)
    | .waits => some (setTop { s with running := s.running + 1 } t { f with phase := .loop } rest)
    | _ => none
  | [] => none

/-- Return of thread_run once stopped. The last frame of a thread leaves the count
of started threads, and thread_main then leaves the count of running ones. -/
def exitLoop (s : State) (t : Nat) : Option State :=
  match s.threads t with
  | f :: rest =>
    if f.phase = .loop ∧ f.stop then some { s with
      started := if rest = [] then s.started - 1 else s.started
      running := if f.main then s.running - 1 else s.running
      threads := Function.update s.threads t rest }
    else none
  | [] => none

def step (s : State) : Action → Option State
  | .malloc => if s.freeJobs = [] then some { s with mallocs := s.brk :: s.mallocs, brk := s.brk + 1 }
      else none
  | .jobsQueue fresh group timeout callback created =>
      (jobsQueue s fresh group timeout callback created).map Prod.snd
  | .doSync t fresh group timeout callback => doSync s t fresh group timeout callback
  | .jobsStart allowed starts waiters =>
      if s.allowed = 0 ∧ 1 ≤ allowed ∧ 0 < waiters ∧ starts ≤ allowed then some { s with
        allowed, started := 0, running := 0, remains := waiters
        creating := s.creating + (starts - 1) }
      else none
  | .startJob t fresh callback =>
      if s.threads t = [] then
        (jobCreate s fresh none 0 callback).map fun (a, s) =>
          threadEnter { jobAdd s a with remains := s.remains - 1 } t false
      else none
  | .threadMain t =>
      if s.threads t = [] ∧ 0 < s.creating then
        some (threadEnter { s with running := s.running + 1, creating := s.creating - 1 } t true)
      else none
  | .take t => takeJob s t
  | .release t => releaseJob s t
  | .idle t free => idle s t free
  | .wake t => wake s t
  | .jobsLeave t depth => some { s with
      threads := Function.update s.threads t
        ((s.threads t).modify depth fun f => { f with stop := true }) }
  | .exit t => exitLoop s t

/-- Addresses of the jobs whose callback is on the stack of the thread. -/
def Frame.running (f : Frame) : Option Addr :=
  match f.phase with
  | .run a => some a
  | _ => none

def execs (s : State) (t : Nat) : List Addr := (s.threads t).filterMap Frame.running

/-! What each section of thread_run can do. -/

section
variable {s u : State} {t : Nat} {free : Bool}

theorem takeJob_cases (h : takeJob s t = some u) :
    ∃ f rest a, s.threads t = f :: rest ∧ f.phase = .loop ∧ jobGet s = some a ∧ u = setTop { s with
        remains := s.remains + 1
        recs := Function.update s.recs a { s.recs a with blocked := true }
        history := s.history ++ [.started (s.recs a).serial (s.recs a).group] }
      t { f with job := some a, phase := .run a } rest := by
  unfold takeJob at h
  split at h
  next f rest hth =>
    obtain ⟨⟨hphase, -⟩, h⟩ := Option.ite_none_right_eq_some.mp h
    obtain ⟨a, ha, rfl⟩ := Option.map_eq_some_iff.mp h
    exact ⟨f, rest, a, hth, hphase, ha, rfl⟩
  next => cases h

theorem releaseJob_cases (h : releaseJob s t = some u) :
    ∃ f rest a before after, s.threads t = f :: rest ∧ f.phase = .run a ∧ s.firstJob = before ++ a :: after ∧
      u = setTop { s with
          recs := unblock s.recs (s.recs a).group after
          firstJob := before ++ after
          freeJobs := a :: s.freeJobs
          history := s.history ++ [.finished (s.recs a).serial] }
        t { f with phase := .loop } rest := by
  unfold releaseJob at h
  split at h
  next f rest hth =>
    split at h
    next a hphase =>
      obtain ⟨v, hv, rfl⟩ := Option.map_eq_some_iff.mp h
      unfold jobRelease at hv
      split at hv
      next => cases hv
      next b after hdrop =>
        cases hv
        obtain rfl : b = a := by simpa using Lib.Words.stop_of_dropWhile hdrop
        have hqueue : s.firstJob = s.firstJob.takeWhile (· ≠ b) ++ b :: after := by
          rw [← hdrop, List.takeWhile_append_dropWhile]
        exact ⟨f, rest, b, _, after, hth, hphase, hqueue, rfl⟩
    next => cases h
  next => cases h

theorem idle_cases (h : idle s t free = some u) :
    ∃ f rest, s.threads t = f :: rest ∧ f.phase = .loop ∧ (u = setTop s t { f with phase := .events } rest ∨
      u = setTop { s with running := s.running - 1 } t { f with phase := .waits } rest) := by
  unfold idle at h
  split at h
  next f rest hth =>
    obtain ⟨⟨hphase, -⟩, h⟩ := Option.ite_none_right_eq_some.mp h
    split at h
    · exact ⟨f, rest, hth, hphase, .inl (Option.some.inj h).symm⟩
    · exact ⟨f, rest, hth, hphase, .inr (Option.some.inj h).symm⟩
  next => cases h

theorem wake_cases (h : wake s t = some u) :
    ∃ f rest, s.threads t = f :: rest ∧ (f.phase = .events ∧ u = setTop s t { f with phase := .loop } rest ∨
      f.phase = .waits ∧ u = setTop { s with running := s.running + 1 } t { f with phase := .loop } rest) := by
  unfold wake at h
  split at h
  next f rest hth =>
    split at h
    next hphase => exact ⟨f, rest, hth, .inl ⟨hphase, (Option.some.inj h).symm⟩⟩
    next hphase => exact ⟨f, rest, hth, .inr ⟨hphase, (Option.some.inj h).symm⟩⟩
    next => cases h
  next => cases h

theorem exitLoop_cases (h : exitLoop s t = some u) :
    ∃ f rest, s.threads t = f :: rest ∧ f.phase = .loop ∧ u = { s with
      started := if rest = [] then s.started - 1 else s.started
      running := if f.main then s.running - 1 else s.running
      threads := Function.update s.threads t rest } := by
  unfold exitLoop at h
  split at h
  next f rest hth =>
    obtain ⟨⟨hphase, -⟩, h⟩ := Option.ite_none_right_eq_some.mp h
    exact ⟨f, rest, hth, hphase, (Option.some.inj h).symm⟩
  next => cases h

end

end AfbBinder.Jobs
