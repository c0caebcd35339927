import AfbBinder.Jobs.Invariant

/-! What a section of the scheduler does: to the queue and the records, and to the frames of the
threads. -/
namespace AfbBinder.Jobs
open Lib.Runs

section
variable {s u : State} {x : Action} {a : Addr} {t : Nat}

/-- The queue, its records and the running jobs are as they were. -/
structure Quiet (s u : State) : Prop where
  recs : ∀ a, a ∉ s.freeJobs ++ s.mallocs → u.recs a = s.recs a
  first : u.firstJob = s.firstJob
  pool : (s.freeJobs ++ s.mallocs).Perm (u.freeJobs ++ u.mallocs)
  brk : u.brk = s.brk
  serial : u.serial = s.serial
  executing : execs u = execs s

/-- One more record was allocated. -/
structure Allocated (s u : State) : Prop where
  recs : u.recs = s.recs
  first : u.firstJob = s.firstJob
  pool : (s.brk :: (s.freeJobs ++ s.mallocs)).Perm (u.freeJobs ++ u.mallocs)
  brk : u.brk = s.brk + 1
  serial : u.serial = s.serial
  executing : execs u = execs s

/-- A free record is the last job of the queue. -/
structure Queued (s u : State) (a : Addr) : Prop where
  recs : ∀ b ≠ a, u.recs b = s.recs b
  job : (u.recs a).serial = s.serial
  blocked : ∀ b ∈ s.firstJob, b ≠ a → SameGroup u.recs b a → (u.recs a).blocked = true
  first : u.firstJob = s.firstJob ++ [a]
  pool : (s.freeJobs ++ s.mallocs).Perm (a :: (u.freeJobs ++ u.mallocs))
  brk : u.brk = s.brk
  serial : u.serial = s.serial + 1
  executing : execs u = execs s

/-- The thread executes a job that was not blocked. -/
structure Took (s u : State) (t : Nat) (a : Addr) : Prop where
  queued : a ∈ s.firstJob
  free : (s.recs a).blocked = false
  recs : u.recs = Function.update s.recs a { s.recs a with blocked := true }
  first : u.firstJob = s.firstJob
  pool : u.freeJobs ++ u.mallocs = s.freeJobs ++ s.mallocs
  brk : u.brk = s.brk
  serial : u.serial = s.serial
  executing : execs u = Function.update (execs s) t (a :: execs s t)

/-- The thread has executed its last job, which leaves the queue. -/
structure Released (s u : State) (t : Nat) (a : Addr) (pre post : List Addr) : Prop where
  queued : s.firstJob = pre ++ a :: post
  recs : u.recs = unblock s.recs (s.recs a).group post
  first : u.firstJob = pre ++ post
  pool : u.freeJobs ++ u.mallocs = a :: (s.freeJobs ++ s.mallocs)
  brk : u.brk = s.brk
  serial : u.serial = s.serial
  last : execs s t = a :: execs u t
  others : ∀ v ≠ t, execs u v = execs s v

inductive Section (s u : State) : Prop where
  | quiet (h : Quiet s u)
  | allocated (h : Allocated s u)
  | queued (a : Addr) (h : Queued s u a)
  | took (t : Nat) (a : Addr) (h : Took s u t a)
  | released (t : Nat) (a : Addr) (pre post : List Addr) (h : Released s u t a pre post)

private theorem Quiet.then (h : Quiet s u) {v : State} (hrecs : v.recs = u.recs)
    (hfirst : v.firstJob = u.firstJob) (hpool : v.freeJobs ++ v.mallocs = u.freeJobs ++ u.mallocs)
    (hbrk : v.brk = u.brk) (hserial : v.serial = u.serial) (hexecs : execs v = execs u) :
    Quiet s v :=
  ⟨fun a ha => by rw [hrecs]; exact h.recs a ha, hfirst.trans h.first, hpool ▸ h.pool,
    hbrk.trans h.brk, hserial.trans h.serial, hexecs.trans h.executing⟩

private theorem Quiet.refl (s : State) : Quiet s s := ⟨fun _ _ => rfl, rfl, .refl _, rfl, rfl, rfl⟩

private theorem Queued.then (h : Queued s u a) {v : State} (hrecs : v.recs = u.recs)
    (hfirst : v.firstJob = u.firstJob) (hpool : v.freeJobs ++ v.mallocs = u.freeJobs ++ u.mallocs)
    (hbrk : v.brk = u.brk) (hserial : v.serial = u.serial) (hexecs : execs v = execs u) :
    Queued s v a where
  recs b hb := by rw [hrecs]; exact h.recs b hb
  job := by rw [hrecs]; exact h.job
  blocked b hb hne hg := by
    rw [hrecs] at hg ⊢
    exact h.blocked b hb hne hg
  first := hfirst.trans h.first
  pool := hpool ▸ h.pool
  brk := hbrk.trans h.brk
  serial := hserial.trans h.serial
  executing := hexecs.trans h.executing

private theorem recycle_quiet {fresh group timeout callback}
    (h : jobCreate s fresh group timeout callback = some (a, u)) :
    Quiet s { u with freeJobs := a :: u.freeJobs } := by
  obtain ⟨free, mal, rfl, hpool⟩ := jobCreate_spec h
  refine ⟨fun b hb => Function.update_of_ne ?_ _ _, rfl, hpool, rfl, rfl, rfl⟩
  rintro rfl
  exact hb (hpool.mem_iff.mpr List.mem_cons_self)

private theorem jobAdd_queued {fresh group timeout callback}
    (h : jobCreate s fresh group timeout callback = some (a, u)) : Queued s (jobAdd u a) a := by
  obtain ⟨free, mal, rfl, hpool⟩ := jobCreate_spec h
  refine ⟨fun b hb => ?_, ?_, fun b hb hne hg => ?_, rfl, hpool, rfl, rfl, rfl⟩
  · simp only [jobAdd, Function.update_of_ne hb]
  · simp only [jobAdd, Function.update_self]
  · simp only [jobAdd, SameGroup, Function.update_self, Function.update_of_ne hne] at hg
    simp only [jobAdd, Function.update_self, Bool.false_or, List.any_eq_true, Bool.and_eq_true,
      beq_iff_eq, Option.isSome_iff_ne_none]
    refine ⟨b, hb, hg.1, ?_⟩
    rw [Function.update_of_ne hne]
    exact hg.2

private theorem threadEnter_execs (s : State) (t : Nat) (main : Bool) :
    execs (threadEnter s t main) = execs s :=
  execs_same (t := t) rfl (List.filterMap_cons_none rfl)

private theorem jobsQueue_section {fresh group timeout callback created rc}
    (h : jobsQueue s fresh group timeout callback created = some (rc, u)) : Section s u := by
  simp only [jobsQueue, Option.map_eq_some_iff, Prod.exists] at h
  obtain ⟨a, v, hc, h⟩ := h
  split_ifs at h
  · cases h
    exact .quiet (recycle_quiet hc)
  · cases h
    exact .quiet (recycle_quiet hc)
  · cases h
    exact .queued a ((jobAdd_queued hc).then rfl rfl rfl rfl rfl rfl)
  · cases h
    exact .queued a ((jobAdd_queued hc).then rfl rfl rfl rfl rfl rfl)

private theorem takeJob_section (h : takeJob s t = some u) : Section s u := by
  obtain ⟨f, rest, a, hth, hphase, ha, rfl⟩ := takeJob_cases h
  have hfree : (s.recs a).blocked = false := by simpa using List.find?_some ha
  refine .took t a ⟨List.mem_of_find?_eq_some ha, hfree, rfl, rfl, rfl, rfl, rfl, ?_⟩
  rw [execs_update (s := s) (t := t) rfl, List.filterMap_cons_some (f := Frame.running) (b := a) rfl,
    execs, hth, List.filterMap_cons_none (by simp [Frame.running, hphase])]

private theorem releaseJob_section (h : releaseJob s t = some u) : Section s u := by
  obtain ⟨f, rest, a, before, after, hth, hphase, hqueue, rfl⟩ := releaseJob_cases h
  have hrun : execs s t = a :: rest.filterMap Frame.running := by simp [execs, hth, Frame.running, hphase]
  refine .released t a before after ⟨hqueue, rfl, rfl, rfl, rfl, rfl, ?_, fun w hw => ?_⟩
  · rw [hrun, execs_update (s := s) (t := t) rfl, Function.update_self, List.filterMap_cons_none rfl]
  · rw [execs_update (s := s) (t := t) rfl, Function.update_of_ne hw]

private theorem quiet_top {f g : Frame} {rest : List Frame} (hth : s.threads t = f :: rest)
    (hu : u.threads = Function.update s.threads t (g :: rest)) (hf : f.running = none)
    (hg : g.running = none) (hrecs : u.recs = s.recs) (hfirst : u.firstJob = s.firstJob)
    (hfree : u.freeJobs = s.freeJobs) (hmallocs : u.mallocs = s.mallocs) (hbrk : u.brk = s.brk)
    (hserial : u.serial = s.serial) : Quiet s u := by
  refine ⟨fun a _ => by rw [hrecs], hfirst, by rw [hfree, hmallocs], hbrk, hserial, ?_⟩
  exact execs_same (t := t) hu (by rw [hth]; exact running_top rest hf hg)

private theorem idle_section {free : Bool} (h : idle s t free = some u) : Section s u := by
  obtain ⟨f, rest, hth, hphase, rfl | rfl⟩ := idle_cases h
  · exact .quiet (quiet_top hth rfl (by simp [Frame.running, hphase]) rfl rfl rfl rfl rfl rfl rfl)
  · exact .quiet (quiet_top hth rfl (by simp [Frame.running, hphase]) rfl rfl rfl rfl rfl rfl rfl)

private theorem wake_section (h : wake s t = some u) : Section s u := by
  obtain ⟨f, rest, hth, ⟨hphase, rfl⟩ | ⟨hphase, rfl⟩⟩ := wake_cases h
  · exact .quiet (quiet_top hth rfl (by simp [Frame.running, hphase]) rfl rfl rfl rfl rfl rfl rfl)
  · exact .quiet (quiet_top hth rfl (by simp [Frame.running, hphase]) rfl rfl rfl rfl rfl rfl rfl)

private theorem exitLoop_section (h : exitLoop s t = some u) : Section s u := by
  obtain ⟨f, rest, hth, hphase, rfl⟩ := exitLoop_cases h
  refine .quiet ⟨fun _ _ => rfl, rfl, .refl _, rfl, rfl, execs_same (t := t) rfl ?_⟩
  rw [hth, List.filterMap_cons_none (by simp [Frame.running, hphase])]

theorem section_of_step (h : step s x = some u) : Section s u := by
  cases x with
  | malloc =>
    obtain ⟨hfree, hu⟩ := Option.ite_none_right_eq_some.mp h
    cases hu
    exact .allocated ⟨rfl, rfl, List.perm_middle.symm, rfl, rfl, rfl⟩
  | jobsQueue fresh group timeout callback created =>
    obtain ⟨⟨rc, v⟩, hq, rfl⟩ := Option.map_eq_some_iff.mp h
    exact jobsQueue_section hq
  | doSync t fresh group timeout callback =>
    simp only [step, doSync, Option.ite_none_right_eq_some, Option.map_eq_some_iff,
      Prod.exists] at h
    obtain ⟨-, a, v, hc, rfl⟩ := h
    exact .queued a ((jobAdd_queued hc).then rfl rfl rfl rfl rfl (threadEnter_execs _ t false))
  | jobsStart allowed starts waiters =>
    obtain ⟨-, hu⟩ := Option.ite_none_right_eq_some.mp h
    cases hu
    exact .quiet ((Quiet.refl s).then rfl rfl rfl rfl rfl rfl)
  | startJob t fresh callback =>
    simp only [step, Option.ite_none_right_eq_some, Option.map_eq_some_iff, Prod.exists] at h
    obtain ⟨-, a, v, hc, rfl⟩ := h
    exact .queued a ((jobAdd_queued hc).then rfl rfl rfl rfl rfl (threadEnter_execs _ t false))
  | threadMain t =>
    obtain ⟨-, hu⟩ := Option.ite_none_right_eq_some.mp h
    cases hu
    exact .quiet ((Quiet.refl s).then rfl rfl rfl rfl rfl (threadEnter_execs _ t true))
  | take t => exact takeJob_section h
  | release t => exact releaseJob_section h
  | idle t free => exact idle_section h
  | wake t => exact wake_section h
  | jobsLeave t depth =>
    cases h
    exact .quiet ((Quiet.refl s).then rfl rfl rfl rfl rfl
      (execs_same (t := t) rfl (running_modify _ _)))
  | exit t => exact exitLoop_section h

end

/-- The thread that enters thread_run in the section. -/
def Action.enters : Action → Option Nat
  | .doSync t _ _ _ _ => some t
  | .startJob t _ _ => some t
  | .threadMain t => some t
  | _ => none

/-- The thread whose last call of thread_run goes on in the section. -/
def Action.loops : Action → Option Nat
  | .take t => some t
  | .release t => some t
  | .idle t _ => some t
  | .wake t => some t
  | .exit t => some t
  | _ => none

/-- The frame records the job that it runs. -/
def Frame.Records (f : Frame) : Prop := ∀ a, f.phase = .run a → f.job = some a

/-- What a section does to the frames of a thread. -/
inductive Moves (x : Action) (t : Nat) (l l' : List Frame) : Prop where
  | same (h : l' = l)
  | stopped (depth : Nat) (h : l' = l.modify depth fun f => { f with stop := true })
  | entered (hx : x.enters = some t) (f : Frame) (hf : f.phase = .loop) (h : l' = f :: l)
  | looped (hx : x.loops = some t) (f g : Frame) (rest : List Frame) (hl : l = f :: rest)
    (hg : g.Records) (h : l' = g :: rest)
  | returned (hx : x.loops = some t) (f : Frame) (rest : List Frame) (hl : l = f :: rest) (h : l' = rest)

section
variable {s u : State} {x : Action} {t : Nat}

private theorem moves_update {l : List Frame} (hu : u.threads = Function.update s.threads t l)
    (h : Moves x t (s.threads t) l) (v : Nat) : Moves x v (s.threads v) (u.threads v) := by
  by_cases hv : v = t
  · subst hv
    rw [hu, Function.update_self]
    exact h
  · rw [hu, Function.update_of_ne hv]
    exact .same rfl

private theorem moves_enter {v : State} (main : Bool) (hv : v.threads = s.threads) (hx : x.enters = some t)
    (w : Nat) : Moves x w (s.threads w) ((threadEnter v t main).threads w) := by
  refine moves_update (u := threadEnter v t main) (t := t) ?_
    (.entered hx ⟨main, none, false, .loop⟩ rfl rfl) w
  rw [← hv]
  rfl

private theorem jobCreate_threads {fresh group timeout callback a}
    (h : jobCreate s fresh group timeout callback = some (a, u)) : u.threads = s.threads := by
  obtain ⟨free, mal, rfl, -⟩ := jobCreate_spec h
  rfl

private theorem takeJob_moves (h : takeJob s t = some u) (v : Nat) :
    Moves (.take t) v (s.threads v) (u.threads v) := by
  obtain ⟨f, rest, a, hth, -, -, rfl⟩ := takeJob_cases h
  refine moves_update (t := t) rfl (.looped rfl f _ rest hth ?_ rfl) v
  intro b hb
  cases hb
  rfl

private theorem releaseJob_moves (h : releaseJob s t = some u) (v : Nat) :
    Moves (.release t) v (s.threads v) (u.threads v) := by
  obtain ⟨f, rest, a, before, after, hth, -, -, rfl⟩ := releaseJob_cases h
  exact moves_update (t := t) rfl (.looped rfl f _ rest hth (fun b hb => by cases hb) rfl) v

private theorem idle_moves {free : Bool} (h : idle s t free = some u) (v : Nat) :
    Moves (.idle t free) v (s.threads v) (u.threads v) := by
  obtain ⟨f, rest, hth, -, rfl | rfl⟩ := idle_cases h
  · exact moves_update (t := t) rfl (.looped rfl f _ rest hth (fun b hb => by cases hb) rfl) v
  · exact moves_update (t := t) rfl (.looped rfl f _ rest hth (fun b hb => by cases hb) rfl) v

private theorem wake_moves (h : wake s t = some u) (v : Nat) :
    Moves (.wake t) v (s.threads v) (u.threads v) := by
  obtain ⟨f, rest, hth, ⟨-, rfl⟩ | ⟨-, rfl⟩⟩ := wake_cases h
  · exact moves_update (t := t) rfl (.looped rfl f _ rest hth (fun b hb => by cases hb) rfl) v
  · exact moves_update (t := t) rfl (.looped rfl f _ rest hth (fun b hb => by cases hb) rfl) v

private theorem exitLoop_moves (h : exitLoop s t = some u) (v : Nat) :
    Moves (.exit t) v (s.threads v) (u.threads v) := by
  obtain ⟨f, rest, hth, -, rfl⟩ := exitLoop_cases h
  exact moves_update (t := t) rfl (.returned rfl f rest hth rfl) v

theorem moves_of_step (h : step s x = some u) (v : Nat) : Moves x v (s.threads v) (u.threads v) := by
  cases x with
  | malloc =>
    obtain ⟨-, hu⟩ := Option.ite_none_right_eq_some.mp h
    cases hu
    exact .same rfl
  | jobsQueue fresh group timeout callback created =>
    obtain ⟨⟨rc, w⟩, hq, rfl⟩ := Option.map_eq_some_iff.mp h
    simp only [jobsQueue, Option.map_eq_some_iff, Prod.exists] at hq
    obtain ⟨a, w', hc, hq⟩ := hq
    have hthreads := congrFun (jobCreate_threads hc) v
    split_ifs at hq <;> cases hq <;> exact .same hthreads
  | doSync t fresh group timeout callback =>
    simp only [step, doSync, Option.ite_none_right_eq_some, Option.map_eq_some_iff,
      Prod.exists] at h
    obtain ⟨-, a, w, hc, rfl⟩ := h
    exact moves_enter false (jobCreate_threads hc) rfl v
  | jobsStart allowed starts waiters =>
    obtain ⟨-, hu⟩ := Option.ite_none_right_eq_some.mp h
    cases hu
    exact .same rfl
  | startJob t fresh callback =>
    simp only [step, Option.ite_none_right_eq_some, Option.map_eq_some_iff, Prod.exists] at h
    obtain ⟨-, a, w, hc, rfl⟩ := h
    exact moves_enter false (jobCreate_threads hc) rfl v
  | threadMain t =>
    obtain ⟨-, hu⟩ := Option.ite_none_right_eq_some.mp h
    cases hu
    exact moves_enter true rfl rfl v
  | take t => exact takeJob_moves h v
  | release t => exact releaseJob_moves h v
  | idle t free => exact idle_moves h v
  | wake t => exact wake_moves h v
  | jobsLeave t depth =>
    cases h
    exact moves_update (t := t) rfl (.stopped depth rfl) v
  | exit t => exact exitLoop_moves h v

end

end AfbBinder.Jobs
