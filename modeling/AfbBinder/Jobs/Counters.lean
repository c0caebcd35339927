import AfbBinder.Lib.Updates
import AfbBinder.Jobs.Model

/-! The counts of started and of running threads, against the threads that are in thread_run. -/
namespace AfbBinder.Jobs
open Lib.Runs Lib.Updates

/-- The thread is in a call of thread_run. -/
def inLoop (stack : List Frame) : Bool := !stack.isEmpty

/-- The thread is blocked in pthread_cond_wait. -/
def waits (stack : List Frame) : Bool := stack.head?.any fun f => f.phase = .waits

def busy (stack : List Frame) : Bool := stack.head?.any fun f => f.phase ≠ .waits

/-- The thread came to thread_run from jobs_start, jobs_call or jobs_enter, not from thread_main. -/
def outside (stack : List Frame) : Bool := stack.getLast?.any fun f => f.main = false

noncomputable def State.count (s : State) (p : List Frame → Bool) : Nat :=
  {t | p (s.threads t) = true}.ncard

/-- jobs_queue comes to start_one_thread. -/
def StartsThread (s : State) : Prop :=
  s.remains ≠ 0 ∧ s.running = s.started ∧ s.started < s.allowed

/-- The running threads are the started ones that are not blocked, and when all are busy and one
more is allowed, a call of jobs_queue tries to start it. -/
def RunningAgrees (s : State) : Prop :=
  s.running = s.count busy ∧
    (s.count busy = s.count inLoop → s.started < s.allowed → StartsThread s)

/-- What a section does to the calls of thread_run of a thread, and to the counts. The number
is the one of the threads that are created and have not run yet. -/
inductive Move (n : Nat) : List Frame → List Frame → Int → Int → Prop
  | stays (stack : List Frame) : Move n stack stack 0 0
  | enters (stack : List Frame) (h : callsBack stack = true) :
      Move n stack (⟨false, none, false, .loop⟩ :: stack) (if stack = [] then 1 else 0) 0
  | created (h : 0 < n) : Move n [] [⟨true, none, false, .loop⟩] 1 1
  | turns (f g : Frame) (rest : List Frame) (hm : g.main = f.main) (hf : f.phase ≠ .waits)
      (hg : g.phase ≠ .waits) : Move n (f :: rest) (g :: rest) 0 0
  | sleeps (f g : Frame) (rest : List Frame) (hm : g.main = f.main) (hf : f.phase ≠ .waits)
      (hg : g.phase = .waits) : Move n (f :: rest) (g :: rest) 0 (-1)
  | wakes (f g : Frame) (rest : List Frame) (hm : g.main = f.main) (hf : f.phase = .waits)
      (hg : g.phase ≠ .waits) : Move n (f :: rest) (g :: rest) 0 1
  | stopped (stack : List Frame) (depth : Nat) :
      Move n stack (stack.modify depth fun f => { f with stop := true }) 0 0
  | exits (f : Frame) (rest : List Frame) (h : f.phase ≠ .waits) :
      Move n (f :: rest) rest (if rest = [] then -1 else 0) (if f.main then -1 else 0)

/-- thread_main is at the bottom of a stack, and calls are nested in callbacks. -/
def Nested : List Frame → Prop
  | [] | [_] => True
  | f :: g :: rest => f.main = false ∧ g.phase ≠ .waits ∧ Nested (g :: rest)

section
variable {s u : State} {x : Action} {n : Nat} {old new : List Frame} {ds dr : Int}

private theorem jobCreate_frame {fresh group timeout callback a} {v : State}
    (h : jobCreate s fresh group timeout callback = some (a, v)) :
    ∃ recs free mallocs, v = { s with recs := recs, freeJobs := free, mallocs := mallocs } := by
  unfold jobCreate at h
  split at h
  · cases h
  · cases h
    exact ⟨_, _, _, rfl⟩
  · split at h
    · cases h
      exact ⟨_, _, _, rfl⟩
    · cases h

/-- The section of jobs_queue: it starts a thread in the states of StartsThread only. -/
theorem jobsQueue_frame {fresh group timeout callback created rc}
    (h : jobsQueue s fresh group timeout callback created = some (rc, u)) :
    u.threads = s.threads ∧ u.started = s.started ∧ u.running = s.running ∧ u.allowed = s.allowed ∧
      (u.creating = s.creating ∨ StartsThread s ∧ u.creating = s.creating + 1) := by
  obtain ⟨⟨a, v⟩, hc, h⟩ := Option.map_eq_some_iff.mp h
  obtain ⟨recs, free, mallocs, rfl⟩ := jobCreate_frame hc
  dsimp only at h
  split at h
  · cases h
    exact ⟨rfl, rfl, rfl, rfl, .inl rfl⟩
  rename_i hroom
  split at h
  · cases h
    exact ⟨rfl, rfl, rfl, rfl, .inl rfl⟩
  cases h
  split
  · rename_i hstart
    exact ⟨rfl, rfl, rfl, rfl, .inr ⟨⟨hroom, hstart.1⟩, rfl⟩⟩
  · exact ⟨rfl, rfl, rfl, rfl, .inl rfl⟩

private theorem step_moves (h : step s x = some u) (hx : ∀ allowed starts waiters,
    x ≠ .jobsStart allowed starts waiters) :
    ∃ t new ds dr, Move s.creating (s.threads t) new ds dr ∧ u.threads = Function.update s.threads t new ∧
      u.started = s.started + ds ∧ u.running = s.running + dr ∧ u.allowed = s.allowed ∧
      (u.creating ≤ s.creating ∨ StartsThread s) := by
  have hstays : ∀ v : State, v.threads = s.threads → v.started = s.started →
      v.running = s.running → v.allowed = s.allowed → (v.creating ≤ s.creating ∨ StartsThread s) →
      ∃ t new ds dr, Move s.creating (s.threads t) new ds dr ∧ v.threads = Function.update s.threads t new ∧
        v.started = s.started + ds ∧ v.running = s.running + dr ∧ v.allowed = s.allowed ∧
        (v.creating ≤ s.creating ∨ StartsThread s) :=
    fun v ht hs hr ha hc => ⟨0, s.threads 0, 0, 0, .stays _, by rw [Function.update_eq_self, ht],
      by omega, by omega, ha, hc⟩
  have hle : ∀ k : Nat, k ≤ k ∨ StartsThread s := fun k => .inl (Nat.le_refl k)
  cases x with
  | malloc =>
    obtain ⟨-, rfl⟩ := Option.ite_some_none_eq_some.mp h
    exact hstays _ rfl rfl rfl rfl (hle _)
  | jobsQueue fresh group timeout callback created =>
    obtain ⟨⟨rc, v⟩, hq, rfl⟩ := Option.map_eq_some_iff.mp h
    obtain ⟨ht, hs, hr, ha, hc⟩ := jobsQueue_frame hq
    exact hstays _ ht hs hr ha (hc.imp Nat.le_of_eq And.left)
  | doSync t fresh group timeout callback =>
    obtain ⟨hcalls, h⟩ := Option.ite_none_right_eq_some.mp h
    obtain ⟨⟨a, v⟩, hc, rfl⟩ := Option.map_eq_some_iff.mp h
    obtain ⟨recs, free, mallocs, rfl⟩ := jobCreate_frame hc
    refine ⟨t, _, _, _, .enters (s.threads t) hcalls, rfl, ?_, (Int.add_zero _).symm, rfl, hle _⟩
    change (if s.threads t = [] then s.started + 1 else s.started) = _
    split <;> simp
  | jobsStart allowed starts waiters => exact absurd rfl (hx _ _ _)
  | startJob t fresh callback =>
    obtain ⟨hempty, h⟩ := Option.ite_none_right_eq_some.mp h
    obtain ⟨⟨a, v⟩, hc, rfl⟩ := Option.map_eq_some_iff.mp h
    obtain ⟨recs, free, mallocs, rfl⟩ := jobCreate_frame hc
    refine ⟨t, _, _, _, .enters (s.threads t) (by rw [hempty]; rfl), rfl, ?_,
      (Int.add_zero _).symm, rfl, hle _⟩
    change (if s.threads t = [] then s.started + 1 else s.started) = _
    split <;> simp
  | threadMain t =>
    obtain ⟨⟨hempty, hpos⟩, rfl⟩ := Option.ite_some_none_eq_some.mp h
    refine ⟨t, [⟨true, none, false, .loop⟩], 1, 1, hempty ▸ .created hpos, ?_, ?_, rfl,
      rfl, .inl (Nat.sub_le _ _)⟩
    · simp only [threadEnter, hempty]
    · simp only [threadEnter, hempty, if_true]
  | take t =>
    obtain ⟨f, rest, a, hth, hphase, -, rfl⟩ := takeJob_cases h
    refine ⟨t, _, 0, 0, hth ▸ .turns f { f with job := some a, phase := .run a } rest rfl
      (by simp [hphase]) (by simp), rfl, ?_, ?_, rfl, hle _⟩ <;> simp [setTop]
  | release t =>
    obtain ⟨f, rest, a, before, after, hth, hphase, -, rfl⟩ := releaseJob_cases h
    refine ⟨t, _, 0, 0, hth ▸ .turns f { f with phase := .loop } rest rfl (by simp [hphase])
      (by simp), rfl, ?_, ?_, rfl, hle _⟩ <;> simp [setTop]
  | idle t free =>
    obtain ⟨f, rest, hth, hphase, rfl | rfl⟩ := idle_cases h
    · refine ⟨t, _, 0, 0, hth ▸ .turns f { f with phase := .events } rest rfl (by simp [hphase])
        (by simp), rfl, ?_, ?_, rfl, hle _⟩ <;> simp [setTop]
    · refine ⟨t, _, 0, -1, hth ▸ .sleeps f { f with phase := .waits } rest rfl (by simp [hphase])
        rfl, rfl, ?_, rfl, rfl, hle _⟩
      simp [setTop]
  | wake t =>
    obtain ⟨f, rest, hth, ⟨hphase, rfl⟩ | ⟨hphase, rfl⟩⟩ := wake_cases h
    · refine ⟨t, _, 0, 0, hth ▸ .turns f { f with phase := .loop } rest rfl (by simp [hphase])
        (by simp), rfl, ?_, ?_, rfl, hle _⟩ <;> simp [setTop]
    · refine ⟨t, _, 0, 1, hth ▸ .wakes f { f with phase := .loop } rest rfl hphase (by simp),
        rfl, ?_, rfl, rfl, hle _⟩
      simp [setTop]
  | jobsLeave t depth =>
    cases h
    exact ⟨t, _, 0, 0, .stopped _ depth, rfl, (Int.add_zero _).symm, (Int.add_zero _).symm, rfl, hle _⟩
  | exit t =>
    obtain ⟨f, rest, hth, hphase, rfl⟩ := exitLoop_cases h
    refine ⟨t, rest, _, _, by rw [hth]; exact .exits f rest (by simp [hphase]), rfl, ?_, ?_, rfl, hle _⟩
    · dsimp only
      split <;> omega
    · dsimp only
      split <;> omega

/-- What the counts read of a stack. -/
private def shape (stack : List Frame) : List (Bool × Phase) := stack.map fun f => (f.main, f.phase)

private theorem shape_stopped (stack : List Frame) (depth : Nat) :
    shape (stack.modify depth fun f => { f with stop := true }) = shape stack := by
  induction stack generalizing depth with
  | nil => cases depth <;> rfl
  | cons f stack ih =>
    cases depth with
    | zero => rfl
    | succ depth => exact congrArg (List.cons _) (ih depth)

private theorem inLoop_shape (h : shape new = shape old) : inLoop new = inLoop old := by
  have hlen : new.length = old.length := by simpa [shape] using congrArg List.length h
  cases new with
  | nil => rw [List.eq_nil_of_length_eq_zero hlen.symm]
  | cons f new =>
    cases old with
    | nil => cases hlen
    | cons => rfl

private theorem busy_shape (h : shape new = shape old) : busy new = busy old := by
  have hhead : ∀ l, busy l = (shape l).head?.any fun x => x.2 ≠ .waits := fun l => by
    cases l <;> rfl
  rw [hhead, hhead, h]

private theorem outside_shape (h : shape new = shape old) : outside new = outside old := by
  have hlast : ∀ l, outside l = (shape l).getLast?.any fun x => x.1 = false := fun l => by
    rw [shape, List.getLast?_map, outside]
    cases l.getLast? <;> rfl
  rw [hlast, hlast, h]

private theorem nested_shape (h : shape new = shape old) (hn : Nested old) : Nested new := by
  induction new generalizing old with
  | nil => trivial
  | cons f new ih =>
    cases old with
    | nil => cases h
    | cons f' old =>
      simp only [shape, List.map_cons, List.cons.injEq, Prod.mk.injEq] at h
      obtain ⟨⟨hmain, -⟩, hrest⟩ := h
      cases new with
      | nil => trivial
      | cons g new =>
        cases old with
        | nil => cases hrest
        | cons g' old =>
          have hg : g.phase = g'.phase := by
            simp only [List.map_cons, List.cons.injEq, Prod.mk.injEq] at hrest
            exact hrest.1.2
          exact ⟨hmain.trans hn.1, hg ▸ hn.2.1, ih hrest hn.2.2⟩

private theorem nested_top {f g : Frame} {rest : List Frame} (hm : g.main = f.main)
    (hn : Nested (f :: rest)) : Nested (g :: rest) := by
  cases rest with
  | nil => trivial
  | cons h rest => exact ⟨hm.trans hn.1, hn.2⟩

private theorem move_nested (h : Move n old new ds dr) (hn : Nested old) : Nested new := by
  cases h with
  | stays => exact hn
  | enters _ hcalls =>
    cases old with
    | nil => trivial
    | cons g rest =>
      refine ⟨rfl, fun hw => ?_, hn⟩
      simp [callsBack, hw] at hcalls
  | created => trivial
  | turns f g rest hm | sleeps f g rest hm | wakes f g rest hm => exact nested_top hm hn
  | stopped _ depth => exact nested_shape (shape_stopped old depth) hn
  | exits f =>
    cases new with
    | nil => trivial
    | cons g rest => exact hn.2.2

private theorem outside_top {f g : Frame} {rest : List Frame} (hm : g.main = f.main) :
    outside (g :: rest) = outside (f :: rest) := by
  cases rest with
  | nil => simp [outside, hm]
  | cons h rest => simp [outside, List.getLast?_cons_cons]

/-- The counts follow the thread that moves, in each kind of move. -/
theorem move_counts (h : Move n old new ds dr) (hn : Nested old) :
    ((inLoop new).toNat : Int) = (inLoop old).toNat + ds ∧
      ((outside new).toNat : Int) + dr + (busy old).toNat =
        (outside old).toNat + (busy new).toNat := by
  cases h with
  | stays => exact ⟨by omega, by omega⟩
  | enters _ hcalls =>
    cases old with
    | nil => exact ⟨rfl, rfl⟩
    | cons g rest =>
      have hg : g.phase ≠ .waits := fun hw => by simp [callsBack, hw] at hcalls
      exact ⟨rfl, by simp [outside, busy, hg]⟩
  | created => exact ⟨rfl, rfl⟩
  | turns f g rest hm hf hg =>
    rw [outside_top hm]
    exact ⟨rfl, by simp [busy, hf, hg]⟩
  | sleeps f g rest hm hf hg =>
    rw [outside_top hm]
    exact ⟨rfl, by simp [busy, hf, hg]⟩
  | wakes f g rest hm hf hg =>
    rw [outside_top hm]
    exact ⟨rfl, by simp [busy, hf, hg]⟩
  | stopped _ depth =>
    have hshape := shape_stopped old depth
    rw [inLoop_shape hshape, outside_shape hshape, busy_shape hshape]
    exact ⟨by omega, by omega⟩
  | exits f _ hf =>
    cases new with
    | nil => cases hm : f.main <;> simp [inLoop, outside, busy, hf, hm]
    | cons g rest =>
      obtain ⟨hmain, hg, -⟩ := hn
      simp [inLoop, outside, busy, hf, hg, hmain]

/-- The counts against the threads that are in thread_run: those of before jobs_start are not
in the one, and those that were blocked then are one too many in the other. -/
structure Tallied (before blocked : Nat) (s : State) : Prop where
  finite : {t | inLoop (s.threads t) = true}.Finite
  nested : ∀ t, Nested (s.threads t)
  started : (s.count inLoop : Int) = s.started + before
  running : (s.count outside : Int) + s.running = s.count busy + blocked

private theorem inLoop_of_busy {stack : List Frame} (h : busy stack = true) :
    inLoop stack = true := by
  cases stack with
  | nil => cases h
  | cons => rfl

private theorem inLoop_of_outside {stack : List Frame} (h : outside stack = true) :
    inLoop stack = true := by
  cases stack with
  | nil => cases h
  | cons => rfl

variable {before blocked : Nat}

private theorem tallied_move {t : Nat} (h : Tallied before blocked s) (hm : Move n (s.threads t) new ds dr)
    (ht : u.threads = Function.update s.threads t new) (hs : u.started = s.started + ds)
    (hr : u.running = s.running + dr) : Tallied before blocked u := by
  obtain ⟨hloop, hbusy⟩ := move_counts hm (h.nested t)
  have hcount : ∀ p : List Frame → Bool, (∀ stack, p stack = true → inLoop stack = true) →
      u.count p + (p (s.threads t)).toNat = s.count p + (p new).toNat := fun p hp => by
    unfold State.count
    rw [ht]
    exact ncard_update (h.finite.subset fun x hx => hp _ hx) t new
  have hinLoop := hcount inLoop fun _ hp => hp
  have hbusy' := hcount busy fun _ => inLoop_of_busy
  have houtside := hcount outside fun _ => inLoop_of_outside
  have hstarted := h.started
  have hrunning := h.running
  refine ⟨?_, fun x => ?_, by omega, by omega⟩
  · rw [ht]
    exact finite_update h.finite t new
  · rw [ht]
    by_cases hx : x = t
    · subst hx
      rw [Function.update_self]
      exact move_nested hm (h.nested x)
    · rw [Function.update_of_ne hx]
      exact h.nested x

/-- Before jobs_start no thread is created by the scheduler. -/
structure Unstarted (s : State) : Prop extends Tallied 0 0 s where
  allowed : s.allowed = 0
  creating : s.creating = 0
  outside : ∀ t, inLoop (s.threads t) = true → outside (s.threads t) = true

private theorem unstarted_init : Unstarted init where
  finite := by simp [init, inLoop]
  nested _ := trivial
  started := by simp [State.count, init, inLoop]
  running := by simp [State.count, init, outside, busy]
  allowed := rfl
  creating := rfl
  outside t h := by cases h

/-- When no thread is created, a thread that is in thread_run came from outside. -/
theorem move_outside (h : Move 0 old new ds dr)
    (ho : inLoop old = true → outside old = true) (hnew : inLoop new = true) :
    outside new = true := by
  cases h with
  | stays => exact ho hnew
  | enters _ hcalls =>
    cases old with
    | nil => rfl
    | cons g rest => simpa [outside, List.getLast?_cons_cons] using ho rfl
  | created h => exact absurd h (Nat.lt_irrefl 0)
  | turns f g rest hm | sleeps f g rest hm | wakes f g rest hm => exact outside_top hm ▸ ho rfl
  | stopped _ depth =>
    have hshape := shape_stopped old depth
    rw [outside_shape hshape]
    exact ho (inLoop_shape hshape ▸ hnew)
  | exits f =>
    cases new with
    | nil => cases hnew
    | cons g rest => simpa [outside, List.getLast?_cons_cons] using ho rfl

private theorem unstarted_step (h : Unstarted s) (hx : ∀ allowed starts waiters,
    x ≠ .jobsStart allowed starts waiters) (hu : step s x = some u) : Unstarted u := by
  obtain ⟨t, new, ds, dr, hm, ht, hs, hr, ha, hc⟩ := step_moves hu hx
  refine ⟨tallied_move h.toTallied hm ht hs hr, ha.trans h.allowed, ?_, fun y => ?_⟩
  · rcases hc with hle | ⟨-, -, hlt⟩
    · exact Nat.le_zero.mp (h.creating ▸ hle)
    · have := h.started
      rw [h.allowed] at hlt
      omega
  · rw [ht]
    by_cases hy : y = t
    · subst hy
      rw [Function.update_self]
      exact move_outside (h.creating ▸ hm) (h.outside y)
    · rw [Function.update_of_ne hy]
      exact h.outside y

/-- The threads that are in thread_run are the busy ones and the blocked ones. -/
theorem count_split (h : {t | inLoop (s.threads t) = true}.Finite) :
    s.count inLoop = s.count busy + s.count waits := by
  have hbusy : {t | busy (s.threads t) = true}.Finite := h.subset fun t => inLoop_of_busy
  have hwaits : {t | waits (s.threads t) = true}.Finite := h.subset fun t ht => by
    cases hth : s.threads t with
    | nil => simp [waits, hth] at ht
    | cons => simp [inLoop, hth]
  have hunion : {t | inLoop (s.threads t) = true} =
      {t | busy (s.threads t) = true} ∪ {t | waits (s.threads t) = true} := by
    ext t
    cases hth : s.threads t with
    | nil => simp [inLoop, busy, waits, hth]
    | cons f rest => by_cases hf : f.phase = .waits <;> simp [inLoop, busy, waits, hth, hf]
  unfold State.count
  rw [hunion]
  refine Set.ncard_union_eq (Set.disjoint_left.mpr fun t hb hw => ?_) hbusy hwaits
  cases hth : s.threads t with
  | nil => simp [busy, hth] at hb
  | cons f rest =>
    simp only [busy, waits, hth, Set.mem_ofPred_eq, List.head?_cons, Option.any_some,
      decide_eq_true_eq] at hb hw
    exact hb hw

/-- jobs_start resets the counts. -/
theorem tallied_jobsStart {allowed starts waiters : Nat} (h : Unstarted s)
    (hu : step s (.jobsStart allowed starts waiters) = some u) :
    Tallied (s.count inLoop) (s.count waits) u ∧ u.allowed ≠ 0 := by
  obtain ⟨⟨-, hpos, -⟩, rfl⟩ := Option.ite_some_none_eq_some.mp hu
  have hall : s.count outside = s.count inLoop := by
    unfold State.count
    congr 1
    ext t
    exact ⟨inLoop_of_outside, h.outside t⟩
  have hsplit := count_split h.finite
  refine ⟨⟨h.finite, h.nested, ?_, ?_⟩, ?_⟩
  · change (s.count inLoop : Int) = 0 + s.count inLoop
    omega
  · change (s.count outside : Int) + 0 = s.count busy + s.count waits
    omega
  · change (allowed : Int) ≠ 0
    omega

private theorem not_jobsStart (ha : s.allowed ≠ 0) (hu : step s x = some u) :
    ∀ allowed starts waiters, x ≠ .jobsStart allowed starts waiters := by
  rintro allowed starts waiters rfl
  obtain ⟨⟨hzero, -⟩, -⟩ := Option.ite_some_none_eq_some.mp hu
  exact ha hzero

private theorem tallied_step (h : Tallied before blocked s ∧ s.allowed ≠ 0) (hu : step s x = some u) :
    Tallied before blocked u ∧ u.allowed ≠ 0 := by
  obtain ⟨t, new, ds, dr, hm, ht, hs, hr, ha, -⟩ := step_moves hu (not_jobsStart h.2 hu)
  exact ⟨tallied_move h.1 hm ht hs hr, ha ▸ h.2⟩

private theorem unstarted_exec {acts : List Action} (hu : exec step init acts = some u)
    (ha : u.allowed = 0) : Unstarted u := by
  have hkeeps : Unstarted u ∨ u.allowed ≠ 0 := by
    refine exec_keeps (I := fun s => Unstarted s ∨ s.allowed ≠ 0) (fun s x v h hv => ?_)
      (.inl unstarted_init) hu
    rcases h with h | h
    · cases x with
      | jobsStart allowed starts waiters => exact .inr (tallied_jobsStart h hv).2
      | _ => exact .inl (unstarted_step h (by simp) hv)
    · obtain ⟨t, new, ds, dr, -, -, -, -, hsame, -⟩ := step_moves hv (not_jobsStart h hv)
      exact .inr (hsame ▸ h)
  exact hkeeps.resolve_right fun hne => hne ha

private theorem running_agrees_of (h : Tallied before blocked s) :
    RunningAgrees s ↔ s.count outside = blocked ∧ (s.count busy = s.count inLoop →
      s.started < s.allowed → s.remains ≠ 0 ∧ before = 0) := by
  have hs := h.started
  have hr := h.running
  have hfirst : s.running = s.count busy ↔ s.count outside = blocked := by omega
  rw [RunningAgrees, hfirst]
  refine and_congr_right fun hagree => forall_congr' fun hbusy => forall_congr' fun hlt => ?_
  refine and_congr_right fun _ => ?_
  constructor
  · rintro ⟨heq, -⟩
    omega
  · rintro rfl
    exact ⟨by omega, hlt⟩

end

/-- In every state after jobs_start has entered its loop, the running threads are the started ones
that are not blocked exactly when the threads that are in thread_run without thread_main, that of
jobs_start among them, are as many as the threads that were blocked when jobs_start reset the
counts; and a call of jobs_queue then starts a thread when none was in thread_run at that time. -/
theorem running_agrees_iff (before during acts : List Action) {r s : State}
    {allowed starts waiters t callback : Nat} {fresh : Option Addr}
    (hr : exec step init before = some r)
    (hs : exec step r (.jobsStart allowed starts waiters :: during ++
      .startJob t fresh callback :: acts) = some s) :
    RunningAgrees s ↔ s.count outside = r.count waits ∧ (s.count busy = s.count inLoop →
      s.started < s.allowed → s.remains ≠ 0 ∧ r.count inLoop = 0) := by
  obtain ⟨u, hu, hs⟩ := exec_cons.mp hs
  obtain ⟨⟨hzero, -⟩, -⟩ := Option.ite_some_none_eq_some.mp hu
  have hstart := tallied_jobsStart (unstarted_exec hr hzero) hu
  have hrun := exec_keeps (I := fun s => Tallied (r.count inLoop) (r.count waits) s ∧ s.allowed ≠ 0)
    (fun _ _ _ h hv => tallied_step h hv) hstart hs
  exact running_agrees_of hrun.1

/-- A daemon starts with one thread, and its start job runs. -/
def startOnly : List Action := [.jobsStart 3 0 50, .malloc, .startJob 0 (some 0) 7, .take 0]

def startJobRuns : State := (exec step init startOnly).getD init

private theorem startJobRuns_exec : exec step init startOnly = some startJobRuns := rfl

theorem startJobRuns_agrees_iff :
    RunningAgrees startJobRuns ↔ startJobRuns.count outside = init.count waits ∧
      (startJobRuns.count busy = startJobRuns.count inLoop →
        startJobRuns.started < startJobRuns.allowed →
          startJobRuns.remains ≠ 0 ∧ init.count inLoop = 0) :=
  running_agrees_iff [] [.malloc] [.take 0] rfl startJobRuns_exec

/-- The thread of jobs_start is busy, and no thread counts as running. -/
theorem startJobRuns_disagrees : exec step init startOnly = some startJobRuns ∧
    startJobRuns.count busy = 1 ∧ startJobRuns.running = 0 ∧ ¬ RunningAgrees startJobRuns := by
  have hthreads : startJobRuns.threads =
      Function.update (fun _ => []) 0 [⟨false, some 0, false, .run 0⟩] := by
    funext t
    by_cases ht : t = 0
    · subst ht
      rfl
    · simp [startJobRuns, startOnly, exec, step, takeJob, jobCreate, jobAdd, threadEnter, setTop,
        init, jobGet, ht]
  have hbusy : startJobRuns.count busy = 1 := by
    refine Set.ncard_eq_one.mpr ⟨0, ?_⟩
    ext t
    rw [hthreads]
    by_cases ht : t = 0 <;> simp [busy, ht]
  refine ⟨rfl, hbusy, rfl, fun h => ?_⟩
  have hrunning : (0 : Int) = startJobRuns.count busy := h.1
  rw [hbusy] at hrunning
  cases hrunning

end AfbBinder.Jobs
