import AfbBinder.Lib.Updates
import AfbBinder.Jobs.Schedule

/-! The count of the jobs that may still wait, against the asynchronous jobs that wait. -/
namespace AfbBinder.Jobs
open Lib.Runs

/-- The scheduler, with the waiter_count given to jobs_start, whether jobs_start has still to
queue its job, and the serial numbers of the synchronous jobs. -/
structure Counted where
  jobs : State
  waiters : Option Nat
  starting : Bool
  syncs : List Nat

def Counted.init : Counted := ⟨Jobs.init, none, false, []⟩

/-- The start job is queued by jobs_start, once. -/
def countedStep (c : Counted) (x : Action) : Option Counted :=
  match x with
  | .jobsStart _ _ waiters =>
    (step c.jobs x).map fun s => { c with jobs := s, waiters := some waiters, starting := true }
  | .startJob .. =>
    if c.starting then (step c.jobs x).map fun s => { c with jobs := s, starting := false }
    else none
  | .doSync .. =>
    (step c.jobs x).map fun s => { c with jobs := s, syncs := c.jobs.serial :: c.syncs }
  | _ => (step c.jobs x).map fun s => { c with jobs := s }

/-- The asynchronous jobs that wait in the queue. -/
def Counted.asyncs (c : Counted) : List Nat :=
  (serials c.jobs).filter fun n => n ∉ starts c.jobs.history ∧ n ∉ c.syncs

/-- Once jobs_start has set the counters, remains is what waiter_count leaves to the asynchronous
jobs that wait. -/
def RemainsWaiters (c : Counted) : Prop :=
  ∀ n, c.waiters = some n → c.jobs.remains = (n : Int) - c.asyncs.length ∧ 0 ≤ c.jobs.remains ∧
    c.jobs.remains ≤ n ∧ c.asyncs.length ≤ n

/-- After jobs_start no synchronous job is taken from the queue, and jobs_start finds no
asynchronous job waiting and room for its own. -/
def KeepsBalance (c : Counted) (x : Action) : Prop :=
  (countedStep c x).isSome →
    match x with
    | .take _ => c.waiters.isSome → ∀ a, jobGet c.jobs = some a → (c.jobs.recs a).serial ∉ c.syncs
    | .jobsStart .. => c.asyncs = []
    | .startJob .. => 0 < c.jobs.remains
    | _ => True

/-- What the counter depends on: the queue, the jobs started, the counter and the next serial
number. -/
def tally (s : State) : List Nat × List Nat × Int × Nat :=
  (serials s, starts s.history, s.remains, s.serial)

section
variable {s u v : State} {x : Action} {a : Addr} {t : Nat}

private theorem tally_eq {l m : List Nat} {r : Int} {n : Nat} (hl : serials u = l)
    (hm : starts u.history = m) (hr : u.remains = r) (hn : u.serial = n) : tally u = (l, m, r, n) := by
  rw [tally, hl, hm, hr, hn]

private theorem serials_create {fresh g timeout callback} (hi : Inv s)
    (h : jobCreate s fresh g timeout callback = some (a, v)) :
    tally v = tally s ∧ (v.recs a).serial = s.serial ∧ a ∉ v.firstJob := by
  obtain ⟨free, mal, rfl, hp⟩ := jobCreate_spec h
  have ha : a ∉ s.firstJob := fun hm =>
    (List.nodup_append.mp hi.nodup).2.2 a hm a (hp.mem_iff.mpr List.mem_cons_self) rfl
  refine ⟨?_, by simp, ha⟩
  have hser : serials { s with
      freeJobs := free, mallocs := mal
      recs := Function.update s.recs a ⟨g, timeout, callback, false, s.serial⟩ } = serials s := by
    refine List.map_congr_left fun b hb => ?_
    have hne : b ≠ a := fun he => ha (he ▸ hb)
    simp [hne]
  exact tally_eq hser rfl rfl rfl

private theorem tally_jobAdd (s : State) (ha : a ∉ s.firstJob) :
    tally (jobAdd s a) =
      (serials s ++ [(s.recs a).serial], starts s.history, s.remains, s.serial + 1) := by
  have hser : serials (jobAdd s a) = serials s ++ [(s.recs a).serial] := by
    simp only [serials, jobAdd, List.map_append, List.map_cons, List.map_nil, Function.update_self]
    congr 1
    refine List.map_congr_left fun b hb => ?_
    have hne : b ≠ a := fun he => ha (he ▸ hb)
    simp [hne]
  exact tally_eq hser (starts_queued ..) rfl rfl

private theorem tally_queued {fresh g timeout callback} (hi : Inv s)
    (h : jobCreate s fresh g timeout callback = some (a, v)) (r : Int) (n : Nat) :
    tally (jobAdd { v with remains := r, creating := n } a) =
      (serials s ++ [s.serial], starts s.history, r, s.serial + 1) := by
  obtain ⟨htally, hserial, ha⟩ := serials_create hi h
  obtain ⟨hser, hstarts, -, hnext⟩ : serials v = serials s ∧ starts v.history = starts s.history ∧
      v.remains = s.remains ∧ v.serial = s.serial := by simpa [tally] using htally
  have hadd : tally (jobAdd { v with remains := r, creating := n } a) =
      (serials v ++ [(v.recs a).serial], starts v.history, r, v.serial + 1) := tally_jobAdd _ ha
  exact hadd.trans (by rw [hser, hstarts, hserial, hnext])

private theorem tally_jobsQueue {fresh g timeout callback created rc} (hi : Inv s)
    (h : jobsQueue s fresh g timeout callback created = some (rc, u)) :
    tally u = tally s ∨ s.remains ≠ 0 ∧
      tally u = (serials s ++ [s.serial], starts s.history, s.remains - 1, s.serial + 1) := by
  obtain ⟨⟨a, v⟩, hc, h⟩ := Option.map_eq_some_iff.mp h
  obtain ⟨htally, -⟩ := serials_create hi hc
  have hremains : v.remains = s.remains := by
    obtain ⟨free, mal, rfl, -⟩ := jobCreate_spec hc
    rfl
  dsimp only at h
  split at h
  · cases h
    exact .inl htally
  rename_i hroom
  split at h
  · cases h
    exact .inl htally
  cases h
  refine .inr ⟨hremains ▸ hroom, ?_⟩
  split
  · exact hremains ▸ tally_queued hi hc (v.remains - 1) (v.creating + 1)
  · exact hremains ▸ tally_queued hi hc (v.remains - 1) v.creating

private theorem tally_take (hi : Inv s) (h : takeJob s t = some u) :
    ∃ a ∈ s.firstJob, jobGet s = some a ∧ ¬ Started s a ∧
      tally u = (serials s, starts s.history ++ [(s.recs a).serial], s.remains + 1, s.serial) := by
  obtain ⟨f, rest, a, -, -, ha, rfl⟩ := takeJob_cases h
  obtain ⟨hb, pre, post, he, -⟩ := List.find?_eq_some_iff_append.mp ha
  have hm : a ∈ s.firstJob := by simp [he]
  refine ⟨a, hm, ha, fun hst => ?_, ?_⟩
  · have := (hi.blockedIff pre a post he).mpr (.inl hst)
    simp [this] at hb
  · have hser : (s.firstJob.map fun b =>
        (Function.update s.recs a { s.recs a with blocked := true } b).serial) = serials s := by
      refine List.map_congr_left fun b _ => ?_
      exact Lib.Updates.update_field s.recs a b Job.serial rfl
    exact tally_eq hser (starts_started ..) rfl rfl

private theorem tally_release (hi : Inv s) (h : releaseJob s t = some u) :
    ∃ n ∈ starts s.history, tally u = ((serials s).erase n, starts s.history, s.remains, s.serial) := by
  obtain ⟨f, rest, b, before, after, hth, hphase, he, rfl⟩ := releaseJob_cases h
  have hrun : b ∈ execs s t := by simp [execs, hth, Frame.running, hphase]
  have hst := ((hi.execIff b).mp ⟨t, hrun⟩).2
  refine ⟨(s.recs b).serial, hst, tally_eq ?_ (starts_finished ..) rfl rfl⟩
  have hnd := hi.serialsNodup
  simp only [serials, he, List.map_append, List.map_cons] at hnd
  have hnot : (s.recs b).serial ∉ before.map fun a => (s.recs a).serial := fun hm =>
    (List.nodup_append.mp hnd).2.2 _ hm _ List.mem_cons_self rfl
  have hser : ∀ l : List Addr, (l.map fun a => (unblock s.recs (s.recs b).group after a).serial) =
      l.map fun a => (s.recs a).serial := fun l =>
    List.map_congr_left fun c _ => unblock_serial _ _ _ c
  simp only [serials, he, setTop, List.map_append, List.map_cons, hser]
  rw [List.erase_append_right _ hnot, List.erase_cons_head]

/-- What each section does to the count. -/
theorem tally_step (hi : Inv s) (h : step s x = some u) :
    match x with
    | .jobsQueue .. => tally u = tally s ∨ s.remains ≠ 0 ∧
        tally u = (serials s ++ [s.serial], starts s.history, s.remains - 1, s.serial + 1)
    | .doSync .. =>
      tally u = (serials s ++ [s.serial], starts s.history, s.remains, s.serial + 1)
    | .jobsStart _ _ waiters => tally u = (serials s, starts s.history, (waiters : Int), s.serial)
    | .startJob .. =>
      tally u = (serials s ++ [s.serial], starts s.history, s.remains - 1, s.serial + 1)
    | .take _ => ∃ a ∈ s.firstJob, jobGet s = some a ∧ ¬ Started s a ∧
        tally u = (serials s, starts s.history ++ [(s.recs a).serial], s.remains + 1, s.serial)
    | .release _ => ∃ n ∈ starts s.history,
        tally u = ((serials s).erase n, starts s.history, s.remains, s.serial)
    | _ => tally u = tally s := by
  cases x with
  | malloc =>
    obtain ⟨-, h⟩ := Option.ite_none_right_eq_some.mp h
    cases h
    rfl
  | jobsQueue fresh group timeout callback created =>
    obtain ⟨⟨rc, v⟩, hq, rfl⟩ := Option.map_eq_some_iff.mp h
    exact tally_jobsQueue hi hq
  | doSync t fresh group timeout callback =>
    obtain ⟨-, h⟩ := Option.ite_none_right_eq_some.mp h
    obtain ⟨⟨a, v⟩, hc, rfl⟩ := Option.map_eq_some_iff.mp h
    have hremains : v.remains = s.remains := by
      obtain ⟨free, mal, rfl, -⟩ := jobCreate_spec hc
      rfl
    exact hremains ▸ tally_queued hi hc v.remains v.creating
  | jobsStart allowed starts waiters =>
    obtain ⟨-, h⟩ := Option.ite_none_right_eq_some.mp h
    cases h
    rfl
  | startJob t fresh callback =>
    obtain ⟨-, h⟩ := Option.ite_none_right_eq_some.mp h
    obtain ⟨⟨a, v⟩, hc, rfl⟩ := Option.map_eq_some_iff.mp h
    have hremains : v.remains = s.remains := by
      obtain ⟨free, mal, rfl, -⟩ := jobCreate_spec hc
      rfl
    exact hremains ▸ tally_queued hi hc (v.remains - 1) v.creating
  | threadMain t =>
    obtain ⟨-, h⟩ := Option.ite_none_right_eq_some.mp h
    cases h
    rfl
  | take t => exact tally_take hi h
  | release t => exact tally_release hi h
  | idle t free =>
    obtain ⟨f, rest, -, -, rfl | rfl⟩ := idle_cases h
    · rfl
    · rfl
  | wake t =>
    obtain ⟨f, rest, -, ⟨-, rfl⟩ | ⟨-, rfl⟩⟩ := wake_cases h
    · rfl
    · rfl
  | jobsLeave t depth =>
    cases h
    rfl
  | exit t =>
    obtain ⟨f, rest, -, -, rfl⟩ := exitLoop_cases h
    rfl

/-- The asynchronous jobs among the given ones that are not started. -/
private def waitingAmong (queue started syncs : List Nat) : List Nat :=
  queue.filter fun n => n ∉ started ∧ n ∉ syncs

private theorem among_queued {queue started syncs : List Nat} {n : Nat} (hs : n ∉ started)
    (hy : n ∉ syncs) :
    (waitingAmong (queue ++ [n]) started syncs).length =
      (waitingAmong queue started syncs).length + 1 := by
  simp [waitingAmong, List.filter_append, hs, hy]

private theorem among_sync {queue started syncs : List Nat} {n : Nat} (hq : n ∉ queue) :
    waitingAmong (queue ++ [n]) started (n :: syncs) = waitingAmong queue started syncs := by
  unfold waitingAmong
  rw [List.filter_append]
  have hself : List.filter (fun m => decide (m ∉ started ∧ m ∉ n :: syncs)) [n] = [] := by simp
  rw [hself, List.append_nil]
  refine List.filter_congr fun m hm => ?_
  have hne : m ≠ n := fun he => hq (he ▸ hm)
  simp [hne]

private theorem among_take {queue started : List Nat} {n : Nat} (syncs : List Nat) (hnd : queue.Nodup)
    (hq : n ∈ queue) (hs : n ∉ started) :
    (waitingAmong queue (started ++ [n]) syncs).length + (if n ∈ syncs then 0 else 1) =
      (waitingAmong queue started syncs).length := by
  have herase : waitingAmong queue (started ++ [n]) syncs =
      (waitingAmong queue started syncs).erase n := by
    unfold waitingAmong
    rw [(hnd.filter _).erase_eq_filter, List.filter_filter]
    refine List.filter_congr fun m _ => ?_
    by_cases hm : m = n <;> simp [hm]
  rw [herase]
  by_cases hy : n ∈ syncs
  · have hnot : n ∉ waitingAmong queue started syncs := by simp [waitingAmong, hy]
    rw [if_pos hy, List.erase_of_not_mem hnot, Nat.add_zero]
  · have hin : n ∈ waitingAmong queue started syncs := by simp [waitingAmong, hq, hs, hy]
    have := List.length_pos_of_mem hin
    rw [if_neg hy, List.length_erase_of_mem hin]
    omega

private theorem among_release {queue started syncs : List Nat} {n : Nat} (hnd : queue.Nodup)
    (hs : n ∈ started) :
    waitingAmong (queue.erase n) started syncs = waitingAmong queue started syncs := by
  unfold waitingAmong
  rw [hnd.erase_eq_filter, List.filter_filter]
  refine List.filter_congr fun m _ => ?_
  by_cases hm : m = n
  · simp [hm, hs]
  · simp [hm]

private theorem asyncs_eq (c : Counted) {l m : List Nat} {r : Int} {n : Nat}
    (h : tally c.jobs = (l, m, r, n)) : c.asyncs = waitingAmong l m c.syncs := by
  obtain ⟨hl, hm, -⟩ := Prod.mk.inj h |>.imp_right fun h => (Prod.mk.inj h)
  rw [Counted.asyncs, waitingAmong, hl, hm]

private structure Balance (c : Counted) : Prop where
  inv : Inv c.jobs
  syncs : ∀ n ∈ c.syncs, n < c.jobs.serial
  remains : ∀ n, c.waiters = some n →
    c.jobs.remains = (n : Int) - c.asyncs.length ∧ 0 ≤ c.jobs.remains
  starting : c.starting = true → c.waiters.isSome

variable {c d : Counted}

private theorem balance_init : Balance .init where
  inv := inv_init
  syncs := fun n hn => absurd hn List.not_mem_nil
  remains := fun n hn => by cases hn
  starting := fun h => by cases h

private theorem remains_waiters (hb : Balance c) : RemainsWaiters c := by
  intro n hn
  obtain ⟨heq, hpos⟩ := hb.remains n hn
  omega

private theorem Balance.next (hb : Balance c) (hs : step c.jobs x = some d.jobs) {l m : List Nat}
    {r : Int} {k : Nat} (htally : tally d.jobs = (l, m, r, k)) (hsyncs : ∀ n ∈ d.syncs, n < k)
    (hstarting : d.starting = true → d.waiters.isSome)
    (hremains : ∀ n, d.waiters = some n →
      r = (n : Int) - (waitingAmong l m d.syncs).length ∧ 0 ≤ r) : Balance d := by
  have hr : d.jobs.remains = r ∧ d.jobs.serial = k := by
    simp only [tally, Prod.mk.injEq] at htally
    exact htally.2.2
  refine ⟨inv_step hb.inv hs, fun n hn => hr.2 ▸ hsyncs n hn, fun n hn => ?_, hstarting⟩
  rw [hr.1, asyncs_eq d htally]
  exact hremains n hn

private theorem fresh_serial (hb : Balance c) :
    c.jobs.serial ∉ starts c.jobs.history ∧ c.jobs.serial ∉ c.syncs ∧
      c.jobs.serial ∉ serials c.jobs :=
  ⟨fun hm => Nat.lt_irrefl _ (hb.inv.startsLt _ hm), fun hm => Nat.lt_irrefl _ (hb.syncs _ hm),
    fun hm => Nat.lt_irrefl _ ((hb.inv.live _).mpr (.inr hm))⟩

private theorem mem_serials {s : State} (ha : a ∈ s.firstJob) : (s.recs a).serial ∈ serials s :=
  List.mem_map_of_mem ha

/-- A job queued with one less to wait. -/
theorem Balance.queued (hb : Balance c) (hs : step c.jobs x = some d.jobs)
    (hy : d.syncs = c.syncs) (hw : d.waiters = c.waiters)
    (hstarting : d.starting = true → d.waiters.isSome) (hroom : c.waiters.isSome → 0 < c.jobs.remains)
    (htally : tally d.jobs = (serials c.jobs ++ [c.jobs.serial], starts c.jobs.history,
      c.jobs.remains - 1, c.jobs.serial + 1)) : Balance d := by
  obtain ⟨hst, hsy, -⟩ := fresh_serial hb
  refine hb.next hs htally (fun n hn => ?_) hstarting fun n hn => ?_
  · exact Nat.lt_succ_of_lt (hb.syncs n (hy ▸ hn))
  · rw [hy, among_queued hst hsy]
    rw [hw] at hn
    have hlt := hroom (hn ▸ rfl)
    have heq : c.jobs.remains =
        (n : Int) - (waitingAmong (serials c.jobs) (starts c.jobs.history) c.syncs).length :=
      (hb.remains n hn).1
    omega

private theorem Balance.same (hb : Balance c) {s : State} (hs : step c.jobs x = some s)
    (htally : tally s = tally c.jobs) : Balance { c with jobs := s } :=
  hb.next hs htally hb.syncs hb.starting hb.remains

/-- A job taken: the counter follows the asynchronous ones only. -/
theorem balance_take (hb : Balance c) {s : State} (hs : step c.jobs (.take t) = some s)
    {a : Addr} (ha : a ∈ c.jobs.firstJob) (hst : ¬ Started c.jobs a)
    (htally : tally s = (serials c.jobs, starts c.jobs.history ++ [(c.jobs.recs a).serial],
      c.jobs.remains + 1, c.jobs.serial)) :
    ((c.waiters.isSome → (c.jobs.recs a).serial ∉ c.syncs) → Balance { c with jobs := s }) ∧
      (RemainsWaiters { c with jobs := s } → c.waiters.isSome →
        (c.jobs.recs a).serial ∉ c.syncs) := by
  have hcount := among_take c.syncs hb.inv.serialsNodup (mem_serials ha) hst
  have hold : ∀ n, c.waiters = some n → c.jobs.remains = (n : Int) -
      (waitingAmong (serials c.jobs) (starts c.jobs.history) c.syncs).length :=
    fun n hn => (hb.remains n hn).1
  constructor
  · intro hsync
    refine hb.next hs htally hb.syncs hb.starting fun n hn => ?_
    have heq := hold n hn
    have hpos := (hb.remains n hn).2
    rw [if_neg (hsync (hn ▸ rfl))] at hcount
    dsimp only
    omega
  · intro hd hw hy
    obtain ⟨n, hn⟩ := Option.isSome_iff_exists.mp hw
    have heq := hold n hn
    have hnext := (hd n hn).1
    have hr : s.remains = c.jobs.remains + 1 := by
      simp only [tally, Prod.mk.injEq] at htally
      exact htally.2.2.1
    rw [asyncs_eq { c with jobs := s } htally] at hnext
    rw [if_pos hy] at hcount
    dsimp only at hnext
    omega

private theorem balance_step (hb : Balance c) (hc : KeepsBalance c x)
    (h : countedStep c x = some d) : Balance d := by
  have hc := hc (h ▸ rfl)
  cases x with
  | jobsStart allowed begun waiters =>
    obtain ⟨s, hs, rfl⟩ := Option.map_eq_some_iff.mp h
    have htally : tally s = _ := tally_step hb.inv hs
    refine hb.next hs htally hb.syncs (fun _ => rfl) fun n hn => ?_
    cases hn
    have hempty : waitingAmong (serials c.jobs) (starts c.jobs.history) c.syncs = [] := hc
    simp [hempty]
  | startJob t fresh callback =>
    obtain ⟨-, h⟩ := Option.ite_none_right_eq_some.mp h
    obtain ⟨s, hs, rfl⟩ := Option.map_eq_some_iff.mp h
    have htally : tally s = _ := tally_step hb.inv hs
    exact hb.queued hs rfl rfl (fun h => by cases h) (fun _ => hc) htally
  | doSync t fresh group timeout callback =>
    obtain ⟨s, hs, rfl⟩ := Option.map_eq_some_iff.mp h
    have htally : tally s = _ := tally_step hb.inv hs
    refine hb.next hs htally (fun n hn => ?_) hb.starting fun n hn => ?_
    · rcases List.mem_cons.mp hn with rfl | hn
      · exact Nat.lt_succ_self _
      · exact Nat.lt_succ_of_lt (hb.syncs n hn)
    · rw [among_sync (fresh_serial hb).2.2]
      exact hb.remains n hn
  | jobsQueue fresh group timeout callback created =>
    obtain ⟨s, hs, rfl⟩ := Option.map_eq_some_iff.mp h
    have hmove : tally s = tally c.jobs ∨ _ := tally_step hb.inv hs
    rcases hmove with hsame | ⟨hroom, htally⟩
    · exact hb.same hs hsame
    · refine hb.queued hs rfl rfl hb.starting (fun hw => ?_) htally
      obtain ⟨n, hn⟩ := Option.isSome_iff_exists.mp hw
      have := (hb.remains n hn).2
      omega
  | take t =>
    obtain ⟨s, hs, rfl⟩ := Option.map_eq_some_iff.mp h
    have hmove : ∃ a ∈ c.jobs.firstJob, _ := tally_step hb.inv hs
    obtain ⟨a, ha, hget, hst, htally⟩ := hmove
    exact (balance_take hb hs ha hst htally).1 fun hw => hc hw a hget
  | release t =>
    obtain ⟨s, hs, rfl⟩ := Option.map_eq_some_iff.mp h
    have hmove : ∃ n ∈ starts c.jobs.history, _ := tally_step hb.inv hs
    obtain ⟨n, hn, htally⟩ := hmove
    refine hb.next hs htally hb.syncs hb.starting ?_
    rw [among_release hb.inv.serialsNodup hn]
    exact hb.remains
  | jobsLeave t depth =>
    obtain ⟨s, hs, rfl⟩ : ∃ s, step c.jobs (.jobsLeave t depth) = some s ∧ { c with jobs := s } = d :=
      Option.map_eq_some_iff.mp h
    exact hb.same hs (tally_step hb.inv hs)
  | malloc | threadMain | idle | wake | exit =>
    obtain ⟨s, hs, rfl⟩ := Option.map_eq_some_iff.mp h
    exact hb.same hs (tally_step hb.inv hs)

private theorem balance_break (hb : Balance c) (hc : ¬ KeepsBalance c x) :
    ∃ d, countedStep c x = some d ∧ ¬ RemainsWaiters d := by
  unfold KeepsBalance at hc
  rw [Classical.not_imp] at hc
  obtain ⟨hsome, hc⟩ := hc
  obtain ⟨d, h⟩ := Option.isSome_iff_exists.mp hsome
  refine ⟨d, h, fun hd => hc ?_⟩
  cases x with
  | jobsStart allowed begun waiters =>
    obtain ⟨s, hs, rfl⟩ := Option.map_eq_some_iff.mp h
    have htally : tally s = _ := tally_step hb.inv hs
    have hnext := (hd waiters rfl).1
    have hr : s.remains = waiters := by
      simp only [tally, Prod.mk.injEq] at htally
      exact htally.2.2.1
    have hsame : c.asyncs = waitingAmong (serials c.jobs) (starts c.jobs.history) c.syncs := rfl
    rw [asyncs_eq ⟨s, some waiters, true, c.syncs⟩ htally, ← hsame] at hnext
    exact List.length_eq_zero_iff.mp (by dsimp only at hnext; omega)
  | startJob t fresh callback =>
    obtain ⟨hstarting, h⟩ := Option.ite_none_right_eq_some.mp h
    obtain ⟨s, hs, rfl⟩ := Option.map_eq_some_iff.mp h
    have htally : tally s = _ := tally_step hb.inv hs
    have hr : s.remains = c.jobs.remains - 1 := by
      simp only [tally, Prod.mk.injEq] at htally
      exact htally.2.2.1
    obtain ⟨n, hn⟩ := Option.isSome_iff_exists.mp (hb.starting hstarting)
    have hpos : 0 ≤ s.remains := (hd n hn).2.1
    dsimp only
    omega
  | take t =>
    obtain ⟨s, hs, rfl⟩ := Option.map_eq_some_iff.mp h
    have hmove : ∃ a ∈ c.jobs.firstJob, _ := tally_step hb.inv hs
    obtain ⟨a, ha, hget, hst, htally⟩ := hmove
    intro hw b hb'
    rw [Option.some.inj (hb'.symm.trans hget)]
    exact (balance_take hb hs ha hst htally).2 hd hw
  | _ => trivial

end

/-- In exactly the runs whose sections keep the balance, remains is always what waiter_count
leaves to the asynchronous jobs that wait. -/
theorem remains_waiters_iff (acts : List Action) :
    Always countedStep RemainsWaiters .init acts ↔ Along countedStep KeepsBalance .init acts :=
  always_iff_along (fun _ => remains_waiters) (fun _ _ _ hb hc h => balance_step hb hc h)
    (fun _ _ hb hc => balance_break hb hc) balance_init acts

/-- The start job makes a synchronous call: the second thread takes that job. -/
def syncCall : List Action :=
  [.jobsStart 2 2 1, .malloc, .startJob 0 (some 0) 7, .take 0, .threadMain 1, .malloc,
    .doSync 0 (some 1) none 0 8, .take 1]

theorem synchronous_job_raises_remains :
    ∃ c, exec countedStep .init syncCall = some c ∧ c.waiters = some 1 ∧ c.asyncs = [] ∧
      c.jobs.remains = 2 ∧ ¬ RemainsWaiters c := by
  refine ⟨_, rfl, rfl, rfl, rfl, fun h => ?_⟩
  have hle := (h 1 rfl).2.2.1
  revert hle
  decide

end AfbBinder.Jobs
