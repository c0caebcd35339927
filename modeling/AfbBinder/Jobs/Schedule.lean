import Mathlib.Data.List.TakeWhile
import AfbBinder.Jobs.Invariant

/-! What the queue invariant says about requests: exclusion and order inside a
group, and the life of every request whatever record carries it. -/
namespace AfbBinder.Jobs
open Lib.Runs

def Waiting (s : State) (n : Nat) : Prop :=
  ∃ a ∈ s.firstJob, (s.recs a).serial = n ∧ ∀ t, a ∉ execs s t

def Executing (s : State) (n : Nat) : Prop := ∃ t, ∃ a ∈ execs s t, (s.recs a).serial = n

def Finished (s : State) (n : Nat) : Prop := n ∈ finishes s.history

theorem inv_exec {acts : List Action} {s : State} (h : exec step init acts = some s) : Inv s :=
  exec_keeps (fun _ _ _ hi hs => inv_step hi hs) inv_init h

private theorem jobCreate_history {s u : State} {fresh g timeout callback a}
    (h : jobCreate s fresh g timeout callback = some (a, u)) : u.history = s.history := by
  obtain ⟨free, mal, rfl, -⟩ := jobCreate_spec h
  rfl

/-- What a section adds to the history; a request is started by the section that takes it. -/
theorem history_step {s u : State} {x : Action} (h : step s x = some u) :
    u.history = s.history ∨ ∃ ev, u.history = s.history ++ [ev] ∧
      ∀ n group, ev = .started n group → ∃ t a, x = .take t ∧ jobGet s = some a ∧
        (s.recs a).serial = n := by
  have hqueued : ∀ {v : State} (n : Nat) (group : Option Nat), v.history = s.history →
      u.history = v.history ++ [.queued n group] → u.history = s.history ∨
      ∃ ev, u.history = s.history ++ [ev] ∧ ∀ n group, ev = .started n group →
        ∃ t a, x = .take t ∧ jobGet s = some a ∧ (s.recs a).serial = n := by
    intro v n group hv hu
    exact .inr ⟨_, hv ▸ hu, fun n group heq => by cases heq⟩
  cases x with
  | malloc =>
    obtain ⟨-, h⟩ := Option.ite_none_right_eq_some.mp h
    cases h
    exact .inl rfl
  | jobsQueue fresh group timeout callback created =>
    obtain ⟨⟨rc, v⟩, hq, rfl⟩ := Option.map_eq_some_iff.mp h
    obtain ⟨⟨a, w⟩, hc, hq⟩ := Option.map_eq_some_iff.mp hq
    have hw := jobCreate_history hc
    simp only at hq
    split at hq
    · cases hq
      exact .inl hw
    · split at hq <;> cases hq
      · exact .inl hw
      · refine hqueued (w.recs a).serial (w.recs a).group hw ?_
        split <;> rfl
  | doSync t fresh group timeout callback =>
    obtain ⟨-, h⟩ := Option.ite_none_right_eq_some.mp h
    obtain ⟨⟨a, w⟩, hc, rfl⟩ := Option.map_eq_some_iff.mp h
    exact hqueued _ _ (jobCreate_history hc) rfl
  | jobsStart allowed starts waiters =>
    obtain ⟨-, h⟩ := Option.ite_none_right_eq_some.mp h
    cases h
    exact .inl rfl
  | startJob t fresh callback =>
    obtain ⟨-, h⟩ := Option.ite_none_right_eq_some.mp h
    obtain ⟨⟨a, w⟩, hc, rfl⟩ := Option.map_eq_some_iff.mp h
    exact hqueued _ _ (jobCreate_history hc) rfl
  | threadMain t =>
    obtain ⟨-, h⟩ := Option.ite_none_right_eq_some.mp h
    cases h
    exact .inl rfl
  | take t =>
    obtain ⟨f, rest, a, -, -, ha, rfl⟩ := takeJob_cases h
    refine .inr ⟨_, rfl, fun n group heq => ?_⟩
    cases heq
    exact ⟨t, a, rfl, ha, rfl⟩
  | release t =>
    obtain ⟨f, rest, a, before, after, -, -, -, rfl⟩ := releaseJob_cases h
    exact .inr ⟨_, rfl, fun n group heq => by cases heq⟩
  | idle t free =>
    obtain ⟨f, rest, -, -, rfl | rfl⟩ := idle_cases h
    · exact .inl rfl
    · exact .inl rfl
  | wake t =>
    obtain ⟨f, rest, -, ⟨-, rfl⟩ | ⟨-, rfl⟩⟩ := wake_cases h
    · exact .inl rfl
    · exact .inl rfl
  | jobsLeave t depth =>
    cases h
    exact .inl rfl
  | exit t =>
    obtain ⟨f, rest, -, -, rfl⟩ := exitLoop_cases h
    exact .inl rfl

private theorem exec_first {s : State} (hi : Inv s) {t : Nat} {a : Addr} (ha : a ∈ execs s t)
    {pre post : List Addr} (he : s.firstJob = pre ++ a :: post) :
    ∀ b ∈ pre, ¬ SameGroup s.recs b a :=
  hi.startedFirst pre a post he ((hi.execIff a).mp ⟨t, ha⟩).2

/-- Two running jobs of one group are the same job of the same thread. -/
theorem exclusion {s : State} (hi : Inv s) {g t u : Nat} {a b : Addr}
    (ha : a ∈ execs s t) (hb : b ∈ execs s u) (hag : (s.recs a).group = some g)
    (hbg : (s.recs b).group = some g) : a = b ∧ t = u := by
  have hab : a = b := by
    obtain ⟨ham, -⟩ := (hi.execIff a).mp ⟨t, ha⟩
    obtain ⟨hbm, -⟩ := (hi.execIff b).mp ⟨u, hb⟩
    obtain ⟨pre, post, he⟩ := List.append_of_mem ham
    -- the one that comes second in the queue would have the other ahead of it
    rw [he, List.mem_append, List.mem_cons] at hbm
    rcases hbm with hbm | rfl | hbm
    · exact absurd ⟨by simp [hag], by rw [hbg, hag]⟩ (exec_first hi ha he b hbm)
    · rfl
    · obtain ⟨p, q, rfl⟩ := List.append_of_mem hbm
      have he' : s.firstJob = (pre ++ a :: p) ++ b :: q := by simp [he]
      exact absurd ⟨by simp [hbg], by rw [hag, hbg]⟩ (exec_first hi hb he' a (by simp))
  subst hab
  exact ⟨rfl, hi.execThread t u a ha hb⟩

private theorem waiting_iff {s : State} (hi : Inv s) {a : Addr} (ha : a ∈ s.firstJob) :
    (∀ t, a ∉ execs s t) ↔ ¬ Started s a := by
  rw [← not_exists, hi.execIff a]
  simp [ha]

/-- A queued request waits, executes or is finished, and only one of these. -/
theorem life {s : State} (hi : Inv s) {n : Nat} (hn : n ∈ queues s.history) :
    (Waiting s n ∨ Executing s n ∨ Finished s n) ∧ ¬ (Waiting s n ∧ Executing s n) ∧
      ¬ (Waiting s n ∧ Finished s n) ∧ ¬ (Executing s n ∧ Finished s n) := by
  rw [hi.queuedAll, List.mem_range, hi.live n] at hn
  have hmem : ∀ a ∈ s.firstJob, (s.recs a).serial ∈ serials s := fun a ha => List.mem_map_of_mem ha
  refine ⟨?_, ?_, ?_, ?_⟩
  · rcases hn with hf | hm
    · exact .inr (.inr hf)
    · obtain ⟨a, ha, rfl⟩ := List.mem_map.mp hm
      by_cases hs : Started s a
      · obtain ⟨t, ht⟩ := (hi.execIff a).mpr ⟨ha, hs⟩
        exact .inr (.inl ⟨t, a, ht, rfl⟩)
      · exact .inl ⟨a, ha, rfl, (waiting_iff hi ha).mpr hs⟩
  · rintro ⟨⟨a, ha, rfl, hw⟩, t, b, hb, he⟩
    obtain ⟨hbm, hbs⟩ := (hi.execIff b).mp ⟨t, hb⟩
    exact (waiting_iff hi ha).mp hw (by rw [Started, ← he]; exact hbs)
  · rintro ⟨⟨a, ha, rfl, -⟩, hf⟩
    exact (hi.gone _ hf).2 (hmem a ha)
  · rintro ⟨⟨t, a, ha, rfl⟩, hf⟩
    exact (hi.gone _ hf).2 (hmem a ((hi.execIff a).mp ⟨t, ha⟩).1)

/-- The mark of a waiting job tells whether an earlier job of its group is queued. -/
theorem blocked_iff {s : State} (hi : Inv s) {a : Addr} {pre post : List Addr}
    (he : s.firstJob = pre ++ a :: post) (hw : ∀ t, a ∉ execs s t) :
    (s.recs a).blocked = true ↔
      ∃ g, (s.recs a).group = some g ∧ ∃ b ∈ pre, (s.recs b).group = some g := by
  have hns := (waiting_iff hi (by simp [he])).mp hw
  rw [hi.blockedIff pre a post he]
  constructor
  · rintro (hs | ⟨b, hb, hne, hg⟩)
    · exact absurd hs hns
    · obtain ⟨g, h⟩ := Option.ne_none_iff_exists'.mp hne
      exact ⟨g, h, b, hb, hg.trans h⟩
  · rintro ⟨g, h, b, hb, hg⟩
    exact .inr ⟨b, hb, by simp [h], by rw [h, hg]⟩

/-- The unguarded scan of job_release always meets the job it looks for. -/
theorem release_enabled {s : State} (hi : Inv s) {t : Nat} {f : Frame} {rest : List Frame}
    {a : Addr} (ht : s.threads t = f :: rest) (hp : f.phase = .run a) :
    (releaseJob s t).isSome := by
  have ha : a ∈ execs s t := by
    rw [execs, ht, List.filterMap_cons_some (f := Frame.running) (b := a) (by simp [Frame.running, hp])]
    simp
  have hm : a ∈ s.firstJob := ((hi.execIff a).mp ⟨t, ha⟩).1
  have hd : s.firstJob.dropWhile (· ≠ a) ≠ [] := by
    intro h
    have := List.dropWhile_eq_nil_iff.mp h a hm
    simp at this
  obtain ⟨b, after, hb⟩ := List.exists_cons_of_ne_nil hd
  simp only [releaseJob, ht, hp, jobRelease, hb, Option.map_some, Option.isSome_some]

/-- In every interleaving of the sections of jobs_queue, jobs_call, jobs_enter and
thread_run: at most one job of a group executes; the jobs of a group start in the
order they were queued; a queued job waits, executes or is finished, none is lost
or started twice, and the release of an executing one finds it; a waiting job is
blocked exactly when an earlier job of its group is in the queue. -/
theorem jobs_run_in_group_order (acts : List Action) (s : State)
    (h : exec step init acts = some s) :
    (∀ g t u a b, a ∈ execs s t → b ∈ execs s u → (s.recs a).group = some g →
      (s.recs b).group = some g → a = b ∧ t = u) ∧
    (∀ t, (execs s t).Nodup) ∧
    (∀ g, startsOf g s.history <+: queuesOf g s.history) ∧
    (∀ n ∈ queues s.history, (Waiting s n ∨ Executing s n ∨ Finished s n) ∧
      ¬ (Waiting s n ∧ Executing s n) ∧ ¬ (Waiting s n ∧ Finished s n) ∧
      ¬ (Executing s n ∧ Finished s n)) ∧
    ((queues s.history).Nodup ∧ (starts s.history).Nodup ∧
      ∀ n ∈ starts s.history, n ∈ queues s.history) ∧
    (∀ t f rest a, s.threads t = f :: rest → f.phase = .run a → (releaseJob s t).isSome) ∧
    (∀ pre a post, s.firstJob = pre ++ a :: post → (∀ t, a ∉ execs s t) →
      ((s.recs a).blocked = true ↔
        ∃ g, (s.recs a).group = some g ∧ ∃ b ∈ pre, (s.recs b).group = some g)) := by
  have hi := inv_exec h
  refine ⟨fun g t u a b ha hb hag hbg => exclusion hi ha hb hag hbg, hi.execNodup, ?_,
    fun n hn => life hi hn, ⟨?_, hi.startsNodup, ?_⟩,
    fun t f rest a ht hp => release_enabled hi ht hp,
    fun pre a post he hw => blocked_iff hi he hw⟩
  · intro g
    rw [hi.order g]
    exact List.prefix_append _ _
  · rw [hi.queuedAll]
    exact List.nodup_range
  · intro n hn
    rw [hi.queuedAll, List.mem_range]
    exact hi.startsLt n hn

/-- Two threads, two jobs of group 4: the second waits, blocked, while the first
runs on one thread and the start job still runs on the other. -/
def sampleSchedule : List Action :=
  [.jobsStart 2 2 9, .malloc, .startJob 0 (some 0) 7, .take 0, .threadMain 1, .malloc,
    .jobsQueue (some 1) (some 4) 0 8 true, .malloc, .jobsQueue (some 2) (some 4) 0 9 true,
    .take 1]

theorem jobs_run_in_group_order_sample :
    ∃ s, exec step init sampleSchedule = some s ∧ execs s 0 = [0] ∧ execs s 1 = [1] ∧
      s.firstJob = [0] ++ [1] ++ 2 :: [] ∧ (s.recs 2).blocked = true ∧
      startsOf 4 s.history <+: queuesOf 4 s.history :=
  ⟨_, rfl, rfl, rfl, rfl, rfl, (jobs_run_in_group_order sampleSchedule _ rfl).2.2.1 4⟩

end AfbBinder.Jobs
