import AfbBinder.Jobs.Sections

/-! The event loop that the threads share: who runs it, who has it, and the bits of its state. The
sections of thread_run are those of the scheduler, and whether an idle thread finds the event loop
free is now what the bits say. -/
namespace AfbBinder.Jobs
open Lib.Runs

/-- Where a call of evloop_run is: before it stores the state, up to the end of sd_event_wait, then
up to the end of sd_event_dispatch, and returned or cut by a signal. -/
inductive Stage where
  | entered
  | waiting
  | dispatching
  | ended
  deriving DecidableEq, Repr

/-- The scheduler with the event loop: whether it is created, the bits of its state, the threads
whose current_evloop it is, their calls of evloop_run, innermost first, and those that wait in
get_sd_event_locked. -/
structure Loop where
  jobs : State
  sdev : Bool
  wait : Bool
  run : Bool
  lock : Bool
  current : Nat → Bool
  runs : Nat → List Stage
  asking : Nat → Bool

namespace Loop

def init : Loop where
  jobs := Jobs.init
  sdev := false
  wait := false
  run := false
  lock := false
  current _ := false
  runs _ := []
  asking _ := false

/-- A thread in evloop_run calls the other functions from the dispatch of an event only. -/
def calls (s : Loop) (t : Nat) : Bool :=
  callsBack (s.jobs.threads t) && !s.asking t &&
    match s.jobs.threads t with
    | [] => true
    | f :: _ => f.phase ≠ .events || (s.runs t).head? = some .dispatching

/-- The release at the head of the loop of thread_run and after it. -/
def release (s : Loop) (t : Nat) : Loop :=
  if s.current t then { s with lock := false, current := Function.update s.current t false } else s

/-- No bit of the state is set. -/
def free (s : Loop) : Bool := s.sdev && !(s.wait || s.run || s.lock)

/-- A thread takes the event loop for itself. -/
def start (s : Loop) (t : Nat) : Loop :=
  { s with
    wait := true
    run := true
    lock := true
    current := Function.update s.current t true
    runs := Function.update s.runs t (.entered :: s.runs t) }

def jobsStep (s : Loop) (a : Action) : Option Loop := (step s.jobs a).map fun jobs => { s with jobs }

/-- A section of the scheduler. -/
def jobStep (s : Loop) : Action → Option Loop
  | .take t => (s.release t).jobsStep (.take t)
  | .exit t => (s.release t).jobsStep (.exit t)
  | .idle t free =>
    if free = (s.release t).free then
      ((s.release t).jobsStep (.idle t free)).map fun s => if free then s.start t else s
    else none
  | .wake t =>
    match (s.jobs.threads t).head?.map Frame.phase, s.runs t with
    | some .events, .ended :: rest =>
      ({ s with runs := Function.update s.runs t rest } : Loop).jobsStep (.wake t)
    | some .events, _ => none
    | _, _ => s.jobsStep (.wake t)
  | .release t => if s.asking t then none else s.jobsStep (.release t)
  | .doSync t fresh group timeout callback =>
    if s.calls t then s.jobsStep (.doSync t fresh group timeout callback) else none
  | .startJob t fresh callback => if s.calls t then s.jobsStep (.startJob t fresh callback) else none
  | .threadMain t => if s.current t || s.asking t then none else s.jobsStep (.threadMain t)
  | a => s.jobsStep a

end Loop

/-- The sections of the scheduler, those of evloop_run, and those of jobs_get_sd_event. The callback
that wakes the threads has none: resume stands for any wake-up of a thread that waits for the event
loop, whoever wakes it. -/
inductive LoopAction where
  | job (a : Action)
  | store (t : Nat)
  | waited (t : Nat)
  | ended (t : Nat)
  | interrupted (t : Nat)
  | getSdEvent (t : Nat)
  | resume (t : Nat)
  deriving DecidableEq, Repr

namespace Loop

/-- The stage of the evloop_run that a thread executes. -/
def stage (s : Loop) (t : Nat) : Option Stage :=
  if (s.jobs.threads t).head?.map Frame.phase = some .events ∧ s.asking t = false then (s.runs t).head? else none

def setStage (s : Loop) (t : Nat) (r : Stage) : Loop :=
  { s with runs := Function.update s.runs t (r :: (s.runs t).tail) }

def step (s : Loop) : LoopAction → Option Loop
  | .job a => s.jobStep a
  | .store t =>
    if s.stage t = some .entered then
      some { s.setStage t .waiting with
        wait := true
        run := true
        lock := true
        current := Function.update s.current t true }
    else none
  | .waited t =>
    if s.stage t = some .waiting then some { s.setStage t .dispatching with wait := false } else none
  | .ended t =>
    if s.stage t = some .dispatching then some { s.setStage t .ended with wait := false, run := false } else none
  | .interrupted t =>
    match s.stage t with
    | none => none
    | some .ended => none
    | some _ => some { s.setStage t .ended with wait := false, run := false }
  | .getSdEvent t =>
    if s.calls t then
      let s := if s.sdev then s else { s with sdev := true, wait := false, run := false, lock := false }
      let s := if s.current t then s else { s with current := Function.update s.current t true, lock := true }
      some { s with asking := Function.update s.asking t s.wait }
    else none
  | .resume t =>
    if s.asking t ∧ s.wait = false then some { s with asking := Function.update s.asking t false } else none

/-- The thread is in evloop_run before its end. -/
def Runs (s : Loop) (t : Nat) : Prop := ∃ r ∈ s.runs t, r ≠ .ended

/-- The thread is in evloop_run before the end of its wait. -/
def Waits (s : Loop) (t : Nat) : Prop := .entered ∈ s.runs t ∨ .waiting ∈ s.runs t

/-- The thread executes evloop_run. -/
def Top (s : Loop) (t : Nat) : Prop := ∃ f rest, s.jobs.threads t = f :: rest ∧ f.phase = .events

/-- At most one thread is in evloop_run, once, and the bits RUN and WAIT tell where it is. -/
structure Inv (s : Loop) : Prop where
  single : ∀ t, s.runs t = [] ∨ ∃ r, s.runs t = [r] ∧ (r ≠ .dispatching → s.Top t)
  only : ∀ t u, s.Runs t → s.Runs u → t = u
  run : s.run = true ↔ ∃ t, s.Runs t
  wait : s.wait = true ↔ ∃ t, s.Waits t
  created : s.sdev = false → s.run = false ∧ s.wait = false ∧ s.lock = false ∧ ∀ t, s.current t = false

private theorem inv_init : Inv .init where
  single _ := .inl rfl
  only t u := by simp [Runs, init]
  run := by simp [Runs, init]
  wait := by simp [Waits, init]
  created _ := ⟨rfl, rfl, rfl, fun _ => rfl⟩

section
variable {s u : Loop} {t : Nat} {a : Action} {j : State}

private theorem Waits.runs (h : s.Waits t) : s.Runs t := by
  rcases h with h | h
  · exact ⟨_, h, by decide⟩
  · exact ⟨_, h, by decide⟩

private theorem top_kept (h : Jobs.step s.jobs a = some j) (htop : s.Top t) (henter : a.enters ≠ some t)
    (hwake : a ≠ .wake t) : ∃ f rest, j.threads t = f :: rest ∧ f.phase = .events := by
  obtain ⟨f, rest, hth, hf⟩ := htop
  have hne {g : Frame} {l : List Frame} {p : Phase} (hl : s.jobs.threads t = g :: l) (hg : g.phase = p) :
      p = .events := by
    rw [hth] at hl
    rw [← hg, ← (List.cons.inj hl).1, hf]
  have hloops : a.loops ≠ some t := by
    intro hx
    cases a <;> simp only [Action.loops, reduceCtorEq, Option.some.injEq] at hx
    case take v =>
      obtain ⟨g, l, b, hl, hg, -, -⟩ := takeJob_cases (hx ▸ h)
      exact nomatch hne hl hg
    case release v =>
      obtain ⟨g, l, b, -, -, hl, hg, -⟩ := releaseJob_cases (hx ▸ h)
      exact nomatch hne hl hg
    case idle v free =>
      obtain ⟨g, l, hl, hg, -⟩ := idle_cases (hx ▸ h)
      exact nomatch hne hl hg
    case wake v => exact hwake (by rw [hx])
    case exit v =>
      obtain ⟨g, l, hl, hg, -⟩ := exitLoop_cases (hx ▸ h)
      exact nomatch hne hl hg
  cases moves_of_step h t with
  | same hsame => exact ⟨f, rest, by rw [hsame, hth], hf⟩
  | stopped depth hstop =>
    rw [hstop, hth]
    cases depth with
    | zero => exact ⟨_, _, rfl, hf⟩
    | succ depth => exact ⟨_, _, rfl, hf⟩
  | entered hx => exact absurd hx henter
  | looped hx => exact absurd hx hloops
  | returned hx => exact absurd hx hloops

private theorem inv_jobs (hi : Inv s) (h : Jobs.step s.jobs a = some j)
    (hout : ∀ t r, a.enters = some t ∨ a = .wake t → s.runs t = [r] → r = .dispatching) :
    Inv { s with jobs := j } := by
  refine ⟨fun t => ?_, hi.only, hi.run, hi.wait, hi.created⟩
  rcases hi.single t with hnil | ⟨r, hr, htop⟩
  · exact .inl hnil
  · refine .inr ⟨r, hr, fun hd => top_kept h (htop hd) (fun hx => ?_) fun hx => ?_⟩
    · exact hd (hout t r (.inl hx) hr)
    · exact hd (hout t r (.inr hx) hr)

private theorem inv_release (hi : Inv s) (t : Nat) : Inv (s.release t) := by
  rw [release]
  split_ifs with hcur
  · refine ⟨hi.single, hi.only, hi.run, hi.wait, fun hs => ?_⟩
    have hoff := (hi.created hs).2.2.2 t
    rw [hcur] at hoff
    exact nomatch hoff
  · exact hi

@[simp] private theorem release_jobs : (s.release t).jobs = s.jobs := by
  rw [release]
  split_ifs <;> rfl

@[simp] private theorem release_runs : (s.release t).runs = s.runs := by
  rw [release]
  split_ifs <;> rfl

private theorem inv_update {l : List Stage} (hi : Inv s) (hothers : ∀ v, s.Runs v → v = t)
    (htops : ∀ v, v ≠ t → s.Top v → u.Top v) (hruns : u.runs = Function.update s.runs t l)
    (hl : l = [] ∨ ∃ r, l = [r] ∧ (r ≠ .dispatching → u.Top t)) (hrun : u.run = true ↔ ∃ r ∈ l, r ≠ .ended)
    (hwait : u.wait = true ↔ .entered ∈ l ∨ .waiting ∈ l) (hcreated : u.sdev = true) : Inv u := by
  have hself : u.runs t = l := by rw [hruns, Function.update_self]
  have hother (v : Nat) (hv : v ≠ t) : u.runs v = s.runs v := by rw [hruns, Function.update_of_ne hv]
  have hall (v : Nat) (hv : u.Runs v) : v = t := by
    by_contra hne
    obtain ⟨r, hr, hlive⟩ := hv
    rw [hother v hne] at hr
    exact hne (hothers v ⟨r, hr, hlive⟩)
  refine ⟨fun v => ?_, fun v w hv hw => (hall v hv).trans (hall w hw).symm, ?_, ?_, fun hs => ?_⟩
  · by_cases hv : v = t
    · rw [hv, hself]
      exact hl
    · rw [hother v hv]
      exact (hi.single v).imp_right fun ⟨r, hr, htop⟩ => ⟨r, hr, fun hd => htops v hv (htop hd)⟩
  · rw [hrun, ← hself]
    refine ⟨fun hr => ⟨t, hr⟩, fun ⟨v, hv⟩ => ?_⟩
    rw [← hall v hv]
    exact hv
  · rw [hwait, ← hself]
    refine ⟨fun hr => ⟨t, hr⟩, fun ⟨v, hv⟩ => ?_⟩
    rw [← hall v hv.runs]
    exact hv
  · rw [hcreated] at hs
    exact nomatch hs

private theorem dispatching_of_not_top (hi : Inv s) (h : ¬ s.Top t) {r : Stage} (hr : s.runs t = [r]) :
    r = .dispatching := by
  by_contra hd
  rcases hi.single t with hnil | ⟨r', hr', htop⟩
  · rw [hnil] at hr
    exact nomatch hr
  · rw [hr] at hr'
    obtain ⟨rfl, -⟩ := List.cons.inj hr'
    exact h (htop hd)

private theorem inv_start (hi : Inv s) (hfree : (s.release t).free = true)
    (h : (s.release t).jobsStep (.idle t true) = some u) : Inv (u.start t) := by
  obtain ⟨j, hj, rfl⟩ := Option.map_eq_some_iff.mp h
  rw [release_jobs] at hj
  obtain ⟨f, rest, hth, hphase, hu⟩ := idle_cases hj
  have hrel := inv_release hi t
  simp only [free, Bool.and_eq_true, Bool.not_eq_true', Bool.or_eq_false_iff] at hfree
  have hquiet (v : Nat) : ¬ s.Runs v := by
    intro hv
    have hon := hrel.run.mpr ⟨v, by rw [Runs, release_runs]; exact hv⟩
    rw [hfree.2.1.2] at hon
    exact absurd hon Bool.false_ne_true
  have htop : ∃ g l, j.threads t = g :: l ∧ g.phase = .events := by
    simp only [Jobs.step, idle, hth] at hj
    split_ifs at hj
    rw [← Option.some.inj hj]
    exact ⟨_, rest, Function.update_self .., rfl⟩
  have hnone : s.runs t = [] := by
    rcases hi.single t with hnil | ⟨r, hr, -⟩
    · exact hnil
    · have hout : ¬ s.Top t := by
        rintro ⟨g, l, hl, hg⟩
        rw [hth] at hl
        rw [(List.cons.inj hl).1, hg] at hphase
        cases hphase
      have hd := dispatching_of_not_top hi hout hr
      exact absurd ⟨r, by rw [hr]; exact List.mem_singleton.mpr rfl, by rw [hd]; decide⟩ (hquiet t)
  have hruns : (({ s.release t with jobs := j } : Loop).start t).runs = Function.update s.runs t [.entered] := by
    rw [start]
    dsimp only
    rw [release_runs, hnone]
  refine inv_update (t := t) hi (fun v hv => absurd hv (hquiet v)) ?_ hruns (.inr ⟨_, rfl, fun _ => htop⟩) ?_ ?_ hfree.1
  · intro v hv hvtop
    exact top_kept (a := .idle t true) hj hvtop (by rintro ⟨⟩) (by rintro ⟨⟩)
  · exact iff_of_true rfl ⟨_, List.mem_singleton.mpr rfl, by decide⟩
  · exact iff_of_true rfl (.inl (List.mem_singleton.mpr rfl))

/-- What the stage of a thread tells. -/
theorem stage_some {r : Stage} (hi : Inv s) (h : s.stage t = some r) : s.Top t ∧ s.runs t = [r] := by
  obtain ⟨⟨hphase, -⟩, hhead⟩ := Option.ite_none_right_eq_some.mp h
  constructor
  · obtain ⟨f, hf, hevents⟩ := Option.map_eq_some_iff.mp hphase
    obtain ⟨rest, hth⟩ : ∃ rest, s.jobs.threads t = f :: rest := by
      cases hth : s.jobs.threads t with
      | nil => simp [hth] at hf
      | cons g rest => exact ⟨rest, by rw [hth] at hf; rw [← Option.some.inj hf]⟩
    exact ⟨f, rest, hth, hevents⟩
  · rcases hi.single t with hnil | ⟨r', hr, -⟩
    · simp [hnil] at hhead
    · rw [hr] at hhead ⊢
      rw [Option.some.inj hhead]

private theorem inv_stage {r q : Stage} (hi : Inv s) (h : s.stage t = some r) (hlive : r ≠ .ended)
    (hjobs : u.jobs = s.jobs) (hsdev : u.sdev = s.sdev) (hruns : u.runs = (s.setStage t q).runs)
    (hrun : u.run = decide (q ≠ .ended)) (hwait : u.wait = decide (q = .entered ∨ q = .waiting)) : Inv u := by
  obtain ⟨htop, hr⟩ := stage_some hi h
  have hrunner : s.Runs t := ⟨r, by rw [hr]; exact List.mem_singleton.mpr rfl, hlive⟩
  have hcreated : s.sdev = true := by
    by_contra hoff
    have hrun := (hi.created (Bool.eq_false_iff.mpr hoff)).1
    rw [hi.run.mpr ⟨t, hrunner⟩] at hrun
    exact nomatch hrun
  have htops (v : Nat) (hv : s.Top v) : u.Top v := by rwa [Top, hjobs]
  rw [setStage, hr] at hruns
  refine inv_update hi (fun v hv => hi.only v t hv hrunner) (fun v _ => htops v) hruns
    (.inr ⟨q, rfl, fun _ => htops t htop⟩) ?_ ?_ (hsdev.trans hcreated)
  · rw [hrun, decide_eq_true_eq]
    simp
  · rw [hwait, decide_eq_true_eq]
    simp [eq_comm]

private theorem calls_dispatching (hi : Inv s) (h : s.calls t = true) {r : Stage} (hr : s.runs t = [r]) :
    r = .dispatching := by
  by_cases htop : s.Top t
  · obtain ⟨f, rest, hth, hf⟩ := htop
    simp only [calls, hth, hf, hr, Bool.and_eq_true, Bool.or_eq_true, decide_eq_true_eq, ne_eq, not_true_eq_false,
      false_or, List.head?_cons, Option.some.injEq] at h
    exact h.2
  · exact dispatching_of_not_top hi htop hr

private theorem inv_jobsStep (hi : Inv s) (h : s.jobsStep a = some u)
    (hout : ∀ t r, a.enters = some t ∨ a = .wake t → s.runs t = [r] → r = .dispatching) : Inv u := by
  obtain ⟨j, hj, rfl⟩ := Option.map_eq_some_iff.mp h
  exact inv_jobs hi hj hout

private theorem top_phase (h : s.Top t) : (s.jobs.threads t).head?.map Frame.phase = some .events := by
  obtain ⟨f, rest, hth, hf⟩ := h
  rw [hth, List.head?_cons, Option.map_some, hf]

private theorem inv_wake (hi : Inv s) (h : s.jobStep (.wake t) = some u) : Inv u := by
  rw [jobStep] at h
  split at h
  next rest _ hruns =>
    obtain ⟨j, hj, rfl⟩ := Option.map_eq_some_iff.mp h
    have hempty : rest = [] := by
      rcases hi.single t with hnil | ⟨r, hr, -⟩
      · rw [hnil] at hruns
        exact nomatch hruns
      · rw [hr] at hruns
        exact (List.cons.inj hruns).2.symm
    subst hempty
    have hlive (v : Nat) (r : Stage) (hd : r ≠ .ended) :
        r ∈ Function.update s.runs t [] v ↔ r ∈ s.runs v := by
      by_cases hv : v = t
      · rw [hv, Function.update_self, hruns]
        simp [hd]
      · rw [Function.update_of_ne hv]
    have hsame (v : Nat) : (∃ r ∈ Function.update s.runs t [] v, r ≠ .ended) ↔ s.Runs v :=
      exists_congr fun r => ⟨fun ⟨hr, hd⟩ => ⟨(hlive v r hd).mp hr, hd⟩, fun ⟨hr, hd⟩ => ⟨(hlive v r hd).mpr hr, hd⟩⟩
    refine ⟨fun v => ?_, fun v w hv hw => hi.only v w ((hsame v).mp hv) ((hsame w).mp hw), ?_, ?_, hi.created⟩
    · by_cases hv : v = t
      · rw [hv]
        exact .inl (Function.update_self ..)
      · refine (hi.single v).imp (fun hnil => ?_) fun ⟨r, hr, htop⟩ => ⟨r, ?_, fun hd => ?_⟩
        · exact (Function.update_of_ne hv ..).trans hnil
        · exact (Function.update_of_ne hv ..).trans hr
        · exact top_kept (a := .wake t) hj (htop hd) (fun hx => nomatch hx) fun hx => hv (Action.wake.inj hx).symm
    · exact hi.run.trans (exists_congr fun v => (hsame v).symm)
    · exact hi.wait.trans (exists_congr fun v =>
        or_congr (hlive v .entered (by decide)).symm (hlive v .waiting (by decide)).symm)
  next => exact nomatch h
  next hphase _ =>
    refine inv_jobsStep hi h fun v r hx hr => ?_
    rcases hx with hx | hx
    · exact nomatch hx
    · rw [← Action.wake.inj hx] at hr
      exact dispatching_of_not_top hi (fun htop => hphase (top_phase htop)) hr

private theorem inv_job (hi : Inv s) (h : s.jobStep a = some u) : Inv u := by
  cases a with
  | take v =>
    refine inv_jobsStep (inv_release hi v) h fun w r hx _ => ?_
    rcases hx with hx | hx <;> exact nomatch hx
  | exit v =>
    refine inv_jobsStep (inv_release hi v) h fun w r hx _ => ?_
    rcases hx with hx | hx <;> exact nomatch hx
  | idle v free =>
    obtain ⟨hfree, h⟩ := Option.ite_none_right_eq_some.mp h
    obtain ⟨w, hw, rfl⟩ := Option.map_eq_some_iff.mp h
    cases free with
    | true => exact inv_start hi hfree.symm hw
    | false =>
      refine inv_jobsStep (inv_release hi v) hw fun w r hx _ => ?_
      rcases hx with hx | hx <;> exact nomatch hx
  | wake v => exact inv_wake hi h
  | release v =>
    obtain ⟨-, h⟩ := Option.ite_none_left_eq_some.mp h
    refine inv_jobsStep hi h fun w r hx _ => ?_
    rcases hx with hx | hx <;> exact nomatch hx
  | doSync v fresh group timeout callback =>
    obtain ⟨hcalls, h⟩ := Option.ite_none_right_eq_some.mp h
    refine inv_jobsStep hi h fun w r hx hr => ?_
    rcases hx with hx | hx
    · cases hx
      exact calls_dispatching hi hcalls hr
    · exact nomatch hx
  | startJob v fresh callback =>
    obtain ⟨hcalls, h⟩ := Option.ite_none_right_eq_some.mp h
    refine inv_jobsStep hi h fun w r hx hr => ?_
    rcases hx with hx | hx
    · cases hx
      exact calls_dispatching hi hcalls hr
    · exact nomatch hx
  | threadMain v =>
    obtain ⟨-, h⟩ := Option.ite_none_left_eq_some.mp h
    refine inv_jobsStep hi h fun w r hx hr => ?_
    rcases hx with hx | hx
    · obtain ⟨j, hj, -⟩ := Option.map_eq_some_iff.mp h
      obtain ⟨⟨hnil, -⟩, -⟩ := Option.ite_none_right_eq_some.mp hj
      rw [← Option.some.inj hx] at hr
      refine dispatching_of_not_top hi (fun ⟨f, rest, hth, _⟩ => ?_) hr
      rw [hnil] at hth
      exact nomatch hth
    · exact nomatch hx
  | malloc => exact inv_jobsStep hi h fun w r hx _ => by rcases hx with hx | hx <;> exact nomatch hx
  | jobsQueue fresh group timeout callback created =>
    exact inv_jobsStep hi h fun w r hx _ => by rcases hx with hx | hx <;> exact nomatch hx
  | jobsStart allowed starts waiters =>
    exact inv_jobsStep hi h fun w r hx _ => by rcases hx with hx | hx <;> exact nomatch hx
  | jobsLeave v depth => exact inv_jobsStep hi h fun w r hx _ => by rcases hx with hx | hx <;> exact nomatch hx

private theorem inv_same (hi : Inv s) (hjobs : u.jobs = s.jobs) (hruns : u.runs = s.runs) (hrun : u.run = s.run)
    (hwait : u.wait = s.wait) (hsdev : u.sdev = true) : Inv u := by
  have hsame (t : Nat) : u.Runs t ↔ s.Runs t := by rw [Runs, Runs, hruns]
  refine ⟨fun t => ?_, fun t v ht hv => hi.only t v ((hsame t).mp ht) ((hsame v).mp hv), ?_, ?_, fun hs => ?_⟩
  · have hsingle := hi.single t
    rwa [← hruns, Top, ← hjobs] at hsingle
  · rw [hrun, hi.run]
    exact exists_congr fun t => (hsame t).symm
  · rw [hwait, hi.wait]
    exact exists_congr fun t => by rw [Waits, Waits, hruns]
  · rw [hsdev] at hs
    exact nomatch hs

private theorem inv_step {a : LoopAction} (hi : Inv s) (h : s.step a = some u) : Inv u := by
  cases a with
  | job a => exact inv_job hi h
  | store t =>
    obtain ⟨hstage, hu⟩ := Option.ite_none_right_eq_some.mp h
    rw [← Option.some.inj hu]
    exact inv_stage hi hstage (q := .waiting) (by decide) rfl rfl rfl rfl rfl
  | waited t =>
    obtain ⟨hstage, hu⟩ := Option.ite_none_right_eq_some.mp h
    have hrun : s.run = true := by
      obtain ⟨-, hr⟩ := stage_some hi hstage
      exact hi.run.mpr ⟨t, .waiting, by rw [hr]; exact List.mem_singleton.mpr rfl, by decide⟩
    rw [← Option.some.inj hu]
    exact inv_stage hi hstage (q := .dispatching) (by decide) rfl rfl rfl hrun rfl
  | ended t =>
    obtain ⟨hstage, hu⟩ := Option.ite_none_right_eq_some.mp h
    rw [← Option.some.inj hu]
    exact inv_stage hi hstage (q := .ended) (by decide) rfl rfl rfl rfl rfl
  | interrupted t =>
    rw [step] at h
    split at h
    next => exact nomatch h
    next => exact nomatch h
    next r hlive hstage =>
      rw [← Option.some.inj h]
      exact inv_stage hi hstage (q := .ended) (fun hr => hlive hr) rfl rfl rfl rfl rfl
  | getSdEvent t =>
    obtain ⟨-, hu⟩ := Option.ite_none_right_eq_some.mp h
    rw [← Option.some.inj hu]
    cases hsdev : s.sdev with
    | true =>
      rw [if_pos rfl]
      split_ifs <;> exact inv_same hi rfl rfl rfl rfl hsdev
    | false =>
      obtain ⟨hrun, hwait, -, -⟩ := hi.created hsdev
      rw [if_neg Bool.false_ne_true]
      split_ifs <;> exact inv_same hi rfl rfl hrun.symm hwait.symm rfl
  | resume t =>
    obtain ⟨-, hu⟩ := Option.ite_none_right_eq_some.mp h
    rw [← Option.some.inj hu]
    exact ⟨hi.single, hi.only, hi.run, hi.wait, hi.created⟩

end

/-! The scheduler. -/

end Loop

/-- The section of the scheduler. -/
def LoopAction.scheduled : LoopAction → Option Action
  | .job a => some a
  | _ => none

namespace Loop
section
variable {s u : Loop}

private theorem jobStep_scheduled {a : Action} (h : s.jobStep a = some u) : Jobs.step s.jobs a =
    some u.jobs := by
  have hstep {v : Loop} (hv : v.jobsStep a = some u) (hjobs : v.jobs = s.jobs) : Jobs.step s.jobs a = some u.jobs := by
    obtain ⟨j, hj, rfl⟩ := Option.map_eq_some_iff.mp hv
    rwa [hjobs] at hj
  cases a with
  | take v => exact hstep h release_jobs
  | exit v => exact hstep h release_jobs
  | idle v free =>
    obtain ⟨-, h⟩ := Option.ite_none_right_eq_some.mp h
    obtain ⟨w, hw, rfl⟩ := Option.map_eq_some_iff.mp h
    obtain ⟨j, hj, rfl⟩ := Option.map_eq_some_iff.mp hw
    rw [release_jobs] at hj
    cases free <;> exact hj
  | wake v =>
    rw [jobStep] at h
    split at h
    · exact hstep h rfl
    · exact nomatch h
    · exact hstep h rfl
  | release v => exact hstep (Option.ite_none_left_eq_some.mp h).2 rfl
  | doSync v fresh group timeout callback => exact hstep (Option.ite_none_right_eq_some.mp h).2 rfl
  | startJob v fresh callback => exact hstep (Option.ite_none_right_eq_some.mp h).2 rfl
  | threadMain v => exact hstep (Option.ite_none_left_eq_some.mp h).2 rfl
  | malloc => exact hstep h rfl
  | jobsQueue fresh group timeout callback created => exact hstep h rfl
  | jobsStart allowed starts waiters => exact hstep h rfl
  | jobsLeave v depth => exact hstep h rfl

private theorem step_scheduled {a : LoopAction} (h : s.step a = some u) :
    exec Jobs.step s.jobs a.scheduled.toList = some u.jobs := by
  cases a with
  | job a =>
    rw [LoopAction.scheduled, Option.toList_some, exec, jobStep_scheduled h]
    rfl
  | store t =>
    obtain ⟨-, hu⟩ := Option.ite_none_right_eq_some.mp h
    rw [← Option.some.inj hu]
    rfl
  | waited t =>
    obtain ⟨-, hu⟩ := Option.ite_none_right_eq_some.mp h
    rw [← Option.some.inj hu]
    rfl
  | ended t =>
    obtain ⟨-, hu⟩ := Option.ite_none_right_eq_some.mp h
    rw [← Option.some.inj hu]
    rfl
  | interrupted t =>
    rw [step] at h
    split at h
    · cases h
    · cases h
    · rw [← Option.some.inj h]
      rfl
  | getSdEvent t =>
    obtain ⟨-, hu⟩ := Option.ite_none_right_eq_some.mp h
    rw [← Option.some.inj hu]
    dsimp only
    split_ifs <;> rfl
  | resume t =>
    obtain ⟨-, hu⟩ := Option.ite_none_right_eq_some.mp h
    rw [← Option.some.inj hu]
    rfl

private theorem exec_scheduled {as : List LoopAction} (h : exec step s as = some u) :
    exec Jobs.step s.jobs (as.filterMap LoopAction.scheduled) = some u.jobs := by
  induction as generalizing s with
  | nil => exact congrArg (Option.map Loop.jobs) h
  | cons a as ih =>
    obtain ⟨v, hv, hu⟩ := exec_cons.mp h
    have hcons : (a :: as).filterMap LoopAction.scheduled =
        a.scheduled.toList ++ as.filterMap LoopAction.scheduled := by
      cases hs : a.scheduled <;> simp [hs]
    rw [hcons, exec_append (step_scheduled hv)]
    exact ih hu

end

/-- In every run, that is a run of the scheduler too, at most one thread is in evloop_run; the
bit RUN is set while there is one, and the bit WAIT up to the end of its wait, so that a thread that
jobs_get_sd_event returned to finds no thread in the wait. -/
theorem event_loop_run_by_one (as : List LoopAction) (s : Loop) (h : exec step .init as = some s) :
    exec Jobs.step Jobs.init (as.filterMap LoopAction.scheduled) = some s.jobs ∧
      (∀ t u, s.Runs t → s.Runs u → t = u) ∧ (s.run = true ↔ ∃ t, s.Runs t) ∧ (s.wait = true ↔ ∃ t, s.Waits t) ∧
      ∀ t a u, a = .getSdEvent t ∨ a = .resume t → s.step a = some u → u.asking t = false → ∀ v, ¬ u.Waits v := by
  have hi : Inv s := exec_keeps (fun _ _ _ => inv_step) inv_init h
  refine ⟨exec_scheduled h, hi.only, hi.run, hi.wait, fun t a u ha hu hgot v hv => ?_⟩
  have hwait := (inv_step hi hu).wait.mpr ⟨v, hv⟩
  rcases ha with rfl | rfl
  · obtain ⟨-, hu⟩ := Option.ite_none_right_eq_some.mp hu
    rw [← Option.some.inj hu] at hgot hwait
    dsimp only at hgot hwait
    rw [Function.update_self, hwait] at hgot
    exact nomatch hgot
  · obtain ⟨⟨-, hoff⟩, hu⟩ := Option.ite_none_right_eq_some.mp hu
    rw [← Option.some.inj hu] at hwait
    exact nomatch hoff.symm.trans hwait

/-- A job gets the event loop, its thread then runs it, and another thread asks for it. -/
private def askedInWait : List LoopAction :=
  [.job .malloc, .job (.jobsStart 2 1 10), .job (.startJob 0 (some 0) 7), .job (.take 0), .getSdEvent 0,
    .job (.release 0), .job (.idle 0 true), .store 0, .getSdEvent 5, .waited 0]

theorem event_loop_run_by_one_sample : ∃ s, exec step .init askedInWait = some s ∧ s.asking 5 = true ∧
    (s.wait = true ↔ ∃ t, s.Waits t) ∧ ∃ u, s.step (.resume 5) = some u ∧ ∀ v, ¬ u.Waits v := by
  obtain ⟨s, hs⟩ : ∃ s, exec step .init askedInWait = some s := Option.isSome_iff_exists.mp (by decide)
  have hseen : (exec step .init askedInWait).map (fun s => (s.asking 5, s.wait)) = some (true, false) := by decide
  rw [hs] at hseen
  obtain ⟨hasking, hwait⟩ := Prod.mk.inj (Option.some.inj hseen)
  obtain ⟨-, -, -, hwaits, hgot⟩ := event_loop_run_by_one askedInWait s hs
  have hresume : s.step (.resume 5) = some { s with asking := Function.update s.asking 5 false } := by
    rw [step, if_pos ⟨hasking, hwait⟩]
  exact ⟨s, hs, hasking, hwaits, _, hresume, hgot 5 _ _ (.inr rfl) hresume (Function.update_self 5 false s.asking)⟩

/-! The bit LOCK. -/

end Loop

/-- The section begins with the release of the event loop by a thread. -/
def LoopAction.releases : LoopAction → Option Nat
  | .job (.take t) => some t
  | .job (.idle t _) => some t
  | .job (.exit t) => some t
  | _ => none

namespace Loop

/-- The bit LOCK is set while a thread has the event loop. -/
def Covered (s : Loop) : Prop := ∀ t, s.current t = true → s.lock = true

/-- A thread that starts a run finds the event loop held by no other one. -/
def StartsAlone (s : Loop) (a : LoopAction) : Prop :=
  ∀ t u, a = .job (.idle t true) → s.step a = some u → ∀ v, s.current v = true → v = t

/-- A thread that releases the event loop is the only one that has it. -/
def ReleasesAlone (s : Loop) (a : LoopAction) : Prop :=
  ∀ t u, a.releases = some t → s.current t = true → s.step a = some u → ∀ v, s.current v = true → v = t

section
variable {s u : Loop} {t : Nat}

private theorem release_covered (hs : s.Covered)
    (halone : s.current t = true → ∀ v, s.current v = true → v = t) :
    (s.release t).Covered := by
  rw [release]
  split_ifs with hcur
  · intro v hv
    dsimp only at hv
    by_cases heq : v = t
    · rw [heq, Function.update_self] at hv
      exact nomatch hv
    · rw [Function.update_of_ne heq] at hv
      exact absurd (halone hcur v hv) heq
  · exact hs

private theorem jobsStep_kept {a : Action} (h : s.jobsStep a = some u) : u.current = s.current ∧ u.lock =
    s.lock := by
  obtain ⟨j, -, rfl⟩ := Option.map_eq_some_iff.mp h
  exact ⟨rfl, rfl⟩

private theorem jobsStep_covered {a : Action} (hs : s.Covered) (h : s.jobsStep a = some u) : u.Covered := by
  obtain ⟨hcurrent, hlock⟩ := jobsStep_kept h
  rwa [Covered, hcurrent, hlock]

private theorem job_covered {a : Action} (hs : s.Covered) (hc : s.ReleasesAlone (.job a))
    (h : s.step (.job a) = some u) :
    u.Covered := by
  have halone (t : Nat) (ht : (LoopAction.job a).releases = some t) : (s.release t).Covered :=
    release_covered hs fun hcur => hc t u ht hcur h
  rw [step] at h
  cases a with
  | take v => exact jobsStep_covered (halone v rfl) h
  | exit v => exact jobsStep_covered (halone v rfl) h
  | idle v free =>
    obtain ⟨-, h⟩ := Option.ite_none_right_eq_some.mp h
    obtain ⟨w, hw, rfl⟩ := Option.map_eq_some_iff.mp h
    cases free with
    | true => exact fun _ _ => rfl
    | false => exact jobsStep_covered (halone v rfl) hw
  | wake v =>
    rw [jobStep] at h
    split at h
    next rest _ _ => exact jobsStep_covered (s := { s with runs := Function.update s.runs v rest }) hs h
    · exact nomatch h
    · exact jobsStep_covered hs h
  | release v => exact jobsStep_covered hs (Option.ite_none_left_eq_some.mp h).2
  | doSync v fresh group timeout callback => exact jobsStep_covered hs (Option.ite_none_right_eq_some.mp h).2
  | startJob v fresh callback => exact jobsStep_covered hs (Option.ite_none_right_eq_some.mp h).2
  | threadMain v => exact jobsStep_covered hs (Option.ite_none_left_eq_some.mp h).2
  | malloc => exact jobsStep_covered hs h
  | jobsQueue fresh group timeout callback created => exact jobsStep_covered hs h
  | jobsStart allowed starts waiters => exact jobsStep_covered hs h
  | jobsLeave v depth => exact jobsStep_covered hs h

private theorem covered_step {a : LoopAction} (hi : Inv s) (hs : s.Covered) (hc : s.ReleasesAlone a)
    (h : s.step a = some u) : u.Covered := by
  cases a with
  | job a => exact job_covered hs hc h
  | store t =>
    obtain ⟨-, hu⟩ := Option.ite_none_right_eq_some.mp h
    rw [← Option.some.inj hu]
    exact fun _ _ => rfl
  | waited t =>
    obtain ⟨-, hu⟩ := Option.ite_none_right_eq_some.mp h
    rw [← Option.some.inj hu]
    exact hs
  | ended t =>
    obtain ⟨-, hu⟩ := Option.ite_none_right_eq_some.mp h
    rw [← Option.some.inj hu]
    exact hs
  | interrupted t =>
    rw [step] at h
    split at h
    · exact nomatch h
    · exact nomatch h
    · rw [← Option.some.inj h]
      exact hs
  | getSdEvent t =>
    obtain ⟨-, hu⟩ := Option.ite_none_right_eq_some.mp h
    rw [← Option.some.inj hu]
    cases hsdev : s.sdev with
    | true =>
      rw [if_pos rfl]
      split_ifs
      · exact hs
      · exact fun _ _ => rfl
    | false =>
      have hnone := (hi.created hsdev).2.2.2 t
      rw [if_neg Bool.false_ne_true]
      rw [if_neg (by rw [hnone]; exact Bool.false_ne_true)]
      exact fun _ _ => rfl
  | resume t =>
    obtain ⟨-, hu⟩ := Option.ite_none_right_eq_some.mp h
    rw [← Option.some.inj hu]
    exact hs

private theorem startsAlone_of (hs : s.Covered) {a : LoopAction} (hc : s.ReleasesAlone a) :
    s.StartsAlone a := by
  rintro t u rfl hu v hv
  cases hcur : s.current t with
  | true => exact hc t u rfl hcur hu v hv
  | false =>
    obtain ⟨hfree, -⟩ := Option.ite_none_right_eq_some.mp hu
    simp [release, hcur, free, hs v hv] at hfree

private theorem lost_step {a : LoopAction} (hc : ¬ s.ReleasesAlone a) :
    ∃ u, s.step a = some u ∧ (¬ u.Covered ∨ ¬ s.StartsAlone a) := by
  simp only [ReleasesAlone, not_forall] at hc
  obtain ⟨t, u, hrel, hcur, hu, v, hv, hne⟩ := hc
  refine ⟨u, hu, ?_⟩
  have hbare {b : Action} (h : (s.release t).jobsStep b = some u) : ¬ u.Covered := by
    obtain ⟨hcurrent, hlock⟩ := jobsStep_kept h
    intro hcov
    rw [release, if_pos hcur] at hcurrent hlock
    have hset := hcov v (by rw [hcurrent]; exact (Function.update_of_ne hne ..).trans hv)
    rw [hlock] at hset
    exact nomatch hset
  cases a with
  | job a =>
    cases a <;> simp only [LoopAction.releases, reduceCtorEq, Option.some.injEq] at hrel
    case take w =>
      subst hrel
      exact .inl (hbare hu)
    case exit w =>
      subst hrel
      exact .inl (hbare hu)
    case idle w free =>
      subst hrel
      cases free with
      | true => exact .inr fun hstart => hne (hstart w u rfl hu v hv)
      | false =>
        obtain ⟨-, hw⟩ := Option.ite_none_right_eq_some.mp hu
        obtain ⟨x, hx, rfl⟩ := Option.map_eq_some_iff.mp hw
        exact .inl (hbare hx)
  | _ => exact nomatch hrel

end

/-- The bit LOCK protects the threads that have the event loop, no run being started by another
thread, in the runs where a thread releases the event loop only when it is the only one that has
it. -/
theorem lock_kept_iff (as : List LoopAction) :
    (Always step Covered .init as ∧ Along step StartsAlone .init as) ↔ Along step ReleasesAlone .init as := by
  suffices ∀ s, Inv s → s.Covered →
      ((Always step Covered s as ∧ Along step StartsAlone s as) ↔ Along step ReleasesAlone s as) from
    this .init inv_init fun _ h => nomatch h
  induction as with
  | nil => exact fun s _ hs => ⟨fun _ => trivial, fun _ => ⟨hs, trivial⟩⟩
  | cons a as ih =>
    intro s hi hs
    constructor
    · rintro ⟨⟨-, hcov⟩, hstarts, hrest⟩
      have hc : s.ReleasesAlone a := by
        by_contra hc
        obtain ⟨u, hu, hlost⟩ := lost_step hc
        rcases hlost with hlost | hlost
        · have hfirst := hcov u hu
          cases as with
          | nil => exact hlost hfirst
          | cons b as => exact hlost hfirst.1
        · exact hlost hstarts
      exact ⟨hc, fun u hu => (ih u (inv_step hi hu) (covered_step hi hs hc hu)).mp ⟨hcov u hu, hrest u hu⟩⟩
    · rintro ⟨hc, hrest⟩
      have hafter (u : Loop) (hu : s.step a = some u) :=
        (ih u (inv_step hi hu) (covered_step hi hs hc hu)).mpr (hrest u hu)
      exact ⟨⟨hs, fun u hu => (hafter u hu).1⟩, startsAlone_of hs hc, fun u hu => (hafter u hu).2⟩

end Loop

end AfbBinder.Jobs
