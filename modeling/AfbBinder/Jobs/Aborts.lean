import AfbBinder.Jobs.Nested
import AfbBinder.Lib.Lists

/-! In a run of the scheduler with calls of jobs_terminate, each job that waits is aborted once, and
the jobs that the frames of the caller execute are linked in the queue again. -/
namespace AfbBinder.Jobs
open Lib.Runs Lib.Lists

/-- At the time of a section, the thread of the calls that go through the queue: the other threads
have stopped. -/
structure Sound (s : Process) (t : Nat) : Prop where
  core : Core (heads (s.calls t)) (underway (s.calls t) ++ s.freed) s.aborts s.jobs
  chain : Chain s.jobs s.aborts (s.jobs.threads t) s.jobs.firstJob (s.calls t)
  records : ∀ u, ∀ f ∈ s.jobs.threads u, f.Records
  control : ∀ u c outer, s.calls u = c :: outer → c.depth ≤ (s.jobs.threads u).length ∧
    (c.cancelling = none → (s.jobs.threads u).length = c.depth)
  others : ∀ u ≠ t, s.calls u = [] ∨ ∃ c, s.calls u = [c] ∧ Pending c
  alone : (∃ c ∈ s.calls t, c.joined = true) → ∀ u ≠ t, s.jobs.threads u = []

/-- The condition on a section. When the threads to join have ended, all other threads have stopped,
and a job recorded by a frame of the caller is one that a frame of it executes, if it is in the
queue; no other thread enters thread_run as long as a call goes through the queue. -/
def Meets (s : Process) : Act → Prop
  | .jobs x => ∀ u, x.enters = some u → ∀ t ≠ u, ∀ c ∈ s.calls t, c.joined = false
  | .join t garbage => (∀ u ≠ t, s.jobs.threads u = [] ∧ s.calls u = []) ∧
    ∀ a ∈ s.jobs.firstJob, stacked garbage (s.jobs.threads t) a = true → a ∈ execs s.jobs t
  | _ => True

section sound
variable {s u : Process} {t : Nat} {x : Action}

private theorem Sound.depths (hi : Sound s t) : ∀ c ∈ s.calls t, c.depth ≤ (s.jobs.threads t).length := by
  cases hcalls : s.calls t with
  | nil => exact fun c hc => absurd hc List.not_mem_nil
  | cons c outer =>
    have hdeep := (hi.control t c outer hcalls).1
    have hchain := hi.chain
    rw [hcalls] at hchain
    refine List.forall_mem_cons.mpr ⟨hdeep, fun c' hc' => ?_⟩
    exact Nat.le_trans (hchain.1 c' hc').2.2 hdeep

private theorem enabled_loops (h : s.enabled x = true) (hx : x.loops = some t) : s.above t = true := by
  cases x <;> cases hx <;> exact h

private theorem enabled_enters (h : s.enabled x = true) (hx : x.enters = some t) : s.free t = true := by
  cases x <;> cases hx
  · exact h
  · exact h
  · unfold Process.enabled at h
    unfold Process.free
    rw [List.isEmpty_iff.mp h]

/-- The last call of a thread that acts is in a callback, above its frames. -/
theorem Sound.above (hi : Sound s t) (h : s.above t = true) :
    ∀ c ∈ s.calls t, c.depth < (s.jobs.threads t).length := by
  unfold Process.above at h
  cases hcalls : s.calls t with
  | nil => exact fun c hc => absurd hc List.not_mem_nil
  | cons c outer =>
    rw [hcalls, Bool.and_eq_true] at h
    have hdeep := of_decide_eq_true h.2
    have hchain := hi.chain
    rw [hcalls] at hchain
    refine List.forall_mem_cons.mpr ⟨hdeep, fun c' hc' => ?_⟩
    exact Nat.lt_of_le_of_lt (hchain.1 c' hc').2.2 hdeep

private theorem Sound.below_step (hi : Sound s t) (hx : s.enabled x = true) {v : State}
    (h : step s.jobs x = some v) : ∀ c ∈ s.calls t, Below c.depth (s.jobs.threads t) (v.threads t) :=
  fun c hc => below_of_moves (moves_of_step h t) (hi.depths c hc) fun hloops =>
    hi.above (enabled_loops hx hloops) c hc

/-- A job that is released is above the frames of the calls. -/
theorem starts_of_step (hi : Sound s t) (hx : s.enabled x = true) {v : State}
    (h : step s.jobs x = some v) : Starts (s.jobs.threads t) s.jobs.firstJob v.firstJob (s.calls t) := by
  intro c hc kept hk hmine
  cases section_of_step h with
  | quiet hq => rwa [hq.first]
  | allocated ha => rwa [ha.first]
  | queued a hq =>
    rw [hq.first]
    exact hk.trans (List.prefix_append _ _)
  | took w a ht => rwa [ht.first]
  | released w a pre post hr =>
    have hnot : a ∉ kept := by
      intro ha
      have hown := hmine a ha
      have hexec : a ∈ execs s.jobs w := by
        rw [hr.last]
        exact List.mem_cons_self
      have hw : t = w := hi.core.execThread t w a (own_running hown) hexec
      subst hw
      rw [← (hi.below_step hx h c hc).own] at hown
      have hnodup := hi.core.execNodup t
      rw [hr.last] at hnodup
      exact (List.nodup_cons.mp hnodup).1 (own_running hown)
    rw [hr.first]
    rw [hr.queued] at hk
    exact (prefix_before hk hnot).trans (List.prefix_append pre post)

private theorem records_of_step (hi : ∀ v, ∀ f ∈ s.jobs.threads v, f.Records) {v : State}
    (h : step s.jobs x = some v) (w : Nat) : ∀ f ∈ v.threads w, f.Records := by
  have hold := hi w
  cases moves_of_step h w with
  | same h => rwa [h]
  | stopped depth h =>
    rw [h]
    exact records_reads (modify_reads _ depth).symm hold
  | entered hx f hf h =>
    rw [h]
    refine List.forall_mem_cons.mpr ⟨fun a ha => ?_, hold⟩
    rw [hf] at ha
    cases ha
  | looped hx f g rest hl hg h =>
    rw [hl] at hold
    rw [h]
    exact List.forall_mem_cons.mpr ⟨hg, (List.forall_mem_cons.mp hold).2⟩
  | returned hx f rest hl h =>
    rw [hl] at hold
    rw [h]
    exact (List.forall_mem_cons.mp hold).2

/-- A thread that is in a call, but in no callback of it, has no section. -/
theorem control_of_step (hi : Sound s t) (hx : s.enabled x = true) {v : State}
    (h : step s.jobs x = some v) (w : Nat) {c : Call} {outer : List Call}
    (hcalls : s.calls w = c :: outer) : c.depth ≤ (v.threads w).length ∧
      (c.cancelling = none → (v.threads w).length = c.depth) := by
  obtain ⟨hdeep, hhere⟩ := hi.control w c outer hcalls
  have habove : x.loops = some w → c.cancelling.isSome = true ∧ c.depth < (s.jobs.threads w).length := by
    intro hloops
    have habove := enabled_loops hx hloops
    rw [Process.above, hcalls, Bool.and_eq_true] at habove
    exact ⟨habove.1, of_decide_eq_true habove.2⟩
  have hfree : x.enters = some w → c.cancelling.isSome = true := by
    intro henters
    have hfree := enabled_enters hx henters
    rwa [Process.free, hcalls] at hfree
  refine ⟨(below_of_moves (moves_of_step h w) hdeep fun hloops => (habove hloops).2).deep, fun hnone => ?_⟩
  rw [hnone] at habove hfree
  cases moves_of_step h w with
  | same h => rw [h, hhere hnone]
  | stopped depth h => rw [h, List.length_modify, hhere hnone]
  | entered hx f hf h => exact absurd (hfree hx) Bool.false_ne_true
  | looped hx f g rest hl hg h => exact absurd (habove hx).1 Bool.false_ne_true
  | returned hx f rest hl h => exact absurd (habove hx).1 Bool.false_ne_true

private theorem Sound.jobs (hi : Sound s t) (hm : Meets s (.jobs x)) (hx : s.enabled x = true) {v : State}
    (h : step s.jobs x = some v) : Sound { s with jobs := v } t where
  core := core_step hi.core h
  chain := hi.chain.steady (hi.below_step hx h) (marked_of_step hi.core h) (starts_of_step hi hx h)
  records := records_of_step hi.records h
  control w c outer hcalls := control_of_step hi hx h w hcalls
  others := hi.others
  alone hjoined w hw := by
    obtain ⟨c, hc, hj⟩ := hjoined
    have hempty := hi.alone ⟨c, hc, hj⟩ w hw
    have hmoves := moves_of_step h w
    rw [hempty] at hmoves
    cases hmoves with
    | same h => exact h
    | stopped depth h => simpa using h
    | entered hx f hf h =>
      have hnot := hm w hx t (Ne.symm hw) c hc
      exact absurd (hnot.symm.trans hj) Bool.false_ne_true
    | looped hx f g rest hl hg h => cases hl
    | returned hx f rest hl h => cases hl

private theorem Sound.reuse (hi : Sound s t) {job : Addr} (h : act s (.reuse job) = some u) : Sound u t := by
  obtain ⟨⟨-, hjob⟩, hu⟩ := Option.ite_none_right_eq_some.mp h
  cases hu
  have hperm : (s.jobs.firstJob ++ heads (s.calls t) ++ (underway (s.calls t) ++ s.freed ++
      (s.jobs.freeJobs ++ s.jobs.mallocs))).Perm (s.jobs.firstJob ++ heads (s.calls t) ++
      (underway (s.calls t) ++ s.freed.erase job ++ (s.jobs.freeJobs ++ job :: s.jobs.mallocs))) := by
    refine List.Perm.append_left _ ?_
    rw [List.append_assoc, List.append_assoc]
    refine List.Perm.append_left _ ?_
    refine ((List.perm_cons_erase hjob).append_right _).trans ?_
    rw [List.cons_append, ← List.append_assoc, ← List.append_assoc]
    exact List.perm_middle.symm
  exact ⟨hi.core.frame (fun _ _ => rfl) rfl (hperm.nodup_iff.mp hi.core.nodup)
      (fun a ha => hi.core.alloc a (hperm.mem_iff.mpr ha)) rfl rfl,
    hi.chain.steady (fun c hc => ⟨hi.depths c hc, rfl⟩) (fun _ _ => ⟨rfl, rfl⟩) (fun _ _ _ hk _ => hk),
    hi.records, hi.control, hi.others, hi.alone⟩

@[simp] theorem setCalls_self (s : Process) (t : Nat) (l : List Call) : (s.setCalls t l).calls t = l := by
  show Function.update s.calls t l t = l
  rw [Function.update_self]

private theorem setCalls_of_ne {v : Nat} (h : v ≠ t) (l : List Call) : (s.setCalls t l).calls v =
    s.calls v := by
  show Function.update s.calls t l v = s.calls v
  rw [Function.update_of_ne h]

private theorem stopAll_reads (s : State) (v : Nat) :
    ((stopAll s).threads v).map Frame.reads = (s.threads v).map Frame.reads :=
  List.map_map

private theorem stopAll_execs (s : State) : execs (stopAll s) = execs s := by
  funext v
  exact running_reads (stopAll_reads s v)

private theorem stopAll_length (s : State) (v : Nat) : ((stopAll s).threads v).length = (s.threads v).length :=
  List.length_map _

/-- The frames are asked to stop. -/
theorem Sound.stopped (hi : Sound s t) : Sound { s with jobs := stopAll s.jobs } t where
  core := hi.core.frame (fun _ _ => rfl) rfl hi.core.nodup hi.core.alloc rfl (stopAll_execs s.jobs)
  chain := hi.chain.steady (fun c hc => below_reads (hi.depths c hc) (stopAll_reads s.jobs t))
    (fun _ _ => ⟨rfl, rfl⟩) fun _ _ _ hk _ => hk
  records v := records_reads (stopAll_reads s.jobs v).symm (hi.records v)
  control v c outer hcalls := by
    have hold := hi.control v c outer hcalls
    rwa [← stopAll_length] at hold
  others := hi.others
  alone hjoined v hv := by
    have hold := hi.alone hjoined v hv
    show (s.jobs.threads v).map _ = []
    rw [hold, List.map_nil]

/-- A thread that acts is in the callbacks of all its calls. -/
theorem Sound.within (hi : Sound s t) (hfree : s.free t = true) : ∀ c ∈ s.calls t,
    c.joined = true ∧ c.cancelling.isSome = true ∧ c.depth ≤ (s.jobs.threads t).length := by
  have hdepths := hi.depths
  have hchain := hi.chain
  unfold Process.free at hfree
  cases hcalls : s.calls t with
  | nil => exact fun c hc => absurd hc List.not_mem_nil
  | cons c outer =>
    rw [hcalls] at hfree hdepths hchain
    have hjoined : c.joined = true := by
      by_contra hj
      have hrest := hchain.2
      rw [if_neg hj] at hrest
      have hnone : c.cancelling.isSome = false := congrArg Option.isSome hrest.1.cancelling
      exact absurd (hnone.symm.trans hfree) Bool.false_ne_true
    refine List.forall_mem_cons.mpr ⟨⟨hjoined, hfree, hdepths c List.mem_cons_self⟩, fun c' hc' => ?_⟩
    obtain ⟨hj, hcancelling, -⟩ := hchain.1 c' hc'
    exact ⟨hj, hcancelling, hdepths c' (List.mem_cons_of_mem _ hc')⟩

/-- The control of a thread whose calls change. -/
theorem control_set {p : Process} {v : Nat} {l : List Call}
    (hold : ∀ w c outer, p.calls w = c :: outer → c.depth ≤ (p.jobs.threads w).length ∧
      (c.cancelling = none → (p.jobs.threads w).length = c.depth))
    (hnew : ∀ c outer, l = c :: outer → c.depth ≤ (p.jobs.threads v).length ∧
      (c.cancelling = none → (p.jobs.threads v).length = c.depth)) (w : Nat) (c : Call)
    (outer : List Call) (h : (p.setCalls v l).calls w = c :: outer) :
    c.depth ≤ (p.jobs.threads w).length ∧
      (c.cancelling = none → (p.jobs.threads w).length = c.depth) := by
  by_cases hw : w = v
  · subst hw
    rw [setCalls_self] at h
    exact hnew c outer h
  · rw [setCalls_of_ne hw] at h
    exact hold w c outer h

/-- A thread whose calls change, once its part of the rest holds. -/
theorem sound_set {p : Process} {v : Nat} {c : Call} {outer : List Call}
    (hcore : Core (heads (c :: outer)) (underway (c :: outer) ++ p.freed) p.aborts p.jobs)
    (hchain : Chain p.jobs p.aborts (p.jobs.threads v) p.jobs.firstJob (c :: outer))
    (hrecords : ∀ w, ∀ f ∈ p.jobs.threads w, f.Records)
    (hold : ∀ w c outer, p.calls w = c :: outer → c.depth ≤ (p.jobs.threads w).length ∧
      (c.cancelling = none → (p.jobs.threads w).length = c.depth))
    (hnew : c.depth ≤ (p.jobs.threads v).length ∧
      (c.cancelling = none → (p.jobs.threads v).length = c.depth))
    (hothers : ∀ w ≠ v, p.calls w = [] ∨ ∃ c, p.calls w = [c] ∧ Pending c)
    (halone : (∃ c' ∈ c :: outer, c'.joined = true) → ∀ w ≠ v, p.jobs.threads w = []) :
    Sound (p.setCalls v (c :: outer)) v := by
  refine ⟨?_, ?_, hrecords, control_set hold fun c' outer' heq => ?_, fun w hw => ?_, ?_⟩
  · rw [setCalls_self]
    exact hcore
  · rw [setCalls_self]
    exact hchain
  · cases heq
    exact hnew
  · rw [setCalls_of_ne hw]
    exact hothers w hw
  · rw [setCalls_self]
    exact halone

private theorem Sound.terminate (hi : Sound s t) {v : Nat} {others : List Nat}
    (h : s.terminate v others = some u) : Sound u t := by
  obtain ⟨⟨-, hfree, -⟩, hu⟩ := Option.ite_none_right_eq_some.mp h
  cases hu
  have hs := hi.stopped
  have hpending : Pending ⟨others, (s.jobs.threads v).length, false, fun _ => none, [], none, none, []⟩ :=
    ⟨rfl, rfl, rfl, rfl⟩
  have hdepth : (s.jobs.threads v).length = ((stopAll s.jobs).threads v).length :=
    (stopAll_length s.jobs v).symm
  have hcontrol := control_set (p := { s with jobs := stopAll s.jobs }) (v := v)
    (l := ⟨others, (s.jobs.threads v).length, false, fun _ => none, [], none, none, []⟩ :: s.calls v)
    hs.control fun c outer hc => by
      cases hc
      exact ⟨Nat.le_of_eq hdepth, fun _ => hdepth.symm⟩
  by_cases hv : v = t
  · subst hv
    refine ⟨?_, ?_, hs.records, hcontrol, fun w hw => ?_, ?_⟩
    · rw [setCalls_self]
      exact hs.core
    · rw [setCalls_self]
      refine ⟨hi.within hfree, ?_⟩
      rw [if_neg Bool.false_ne_true]
      exact ⟨hpending, hs.chain⟩
    · rw [setCalls_of_ne hw]
      exact hs.others w hw
    · rw [setCalls_self]
      rintro ⟨c, hc, hj⟩ w hw
      rcases List.mem_cons.mp hc with rfl | hc
      · cases hj
      · exact hs.alone ⟨c, hc, hj⟩ w hw
  · have hnone : s.calls v = [] := by
      rcases hi.others v hv with hnil | ⟨c, hcalls, hc⟩
      · exact hnil
      · rw [Process.free, hcalls] at hfree
        have hnone : c.cancelling.isSome = false := congrArg Option.isSome hc.cancelling
        exact absurd (hnone.symm.trans hfree) Bool.false_ne_true
    have hself : ∀ (p : Process) (l : List Call), (p.setCalls v l).calls t = p.calls t :=
      fun p l => setCalls_of_ne (Ne.symm hv) l
    refine ⟨?_, ?_, hs.records, hcontrol, fun w hw => ?_, ?_⟩
    · rw [hself]
      exact hs.core
    · rw [hself]
      exact hs.chain
    · by_cases hwv : w = v
      · subst hwv
        rw [setCalls_self, hnone]
        exact .inr ⟨_, rfl, hpending⟩
      · rw [setCalls_of_ne hwv]
        exact hs.others w hw
    · rw [hself]
      exact hs.alone

/-- When the other threads have stopped and are in no call, the calls may be those of a thread. -/
theorem Sound.switch (hi : Sound s t) {v : Nat}
    (hstop : ∀ w ≠ v, s.jobs.threads w = [] ∧ s.calls w = []) : Sound s v := by
  by_cases hv : v = t
  · exact hv ▸ hi
  have hnil : s.calls t = [] := (hstop t (Ne.symm hv)).2
  have hcore := hi.core
  rw [hnil] at hcore
  have hothers : ∀ w ≠ v, s.calls w = [] ∨ ∃ c, s.calls w = [c] ∧ Pending c :=
    fun w hw => .inl (hstop w hw).2
  have halone : (∃ c ∈ s.calls v, c.joined = true) → ∀ w ≠ v, s.jobs.threads w = [] :=
    fun _ w hw => (hstop w hw).1
  rcases hi.others v hv with hcalls | ⟨c, hcalls, hc⟩
  · refine ⟨?_, ?_, hi.records, hi.control, hothers, halone⟩ <;> rw [hcalls]
    · exact hcore
    · trivial
  · refine ⟨?_, ?_, hi.records, hi.control, hothers, halone⟩ <;> rw [hcalls]
    · have hheads : heads [c] = [] := by rw [heads, List.flatMap_singleton, hc.head]
      have hunderway : underway [c] = [] := by rw [underway, List.filterMap_cons_none hc.cancelling]; rfl
      rw [hheads, hunderway]
      exact hcore
    · refine ⟨fun c' hc' => absurd hc' List.not_mem_nil, ?_⟩
      rw [if_neg (by rw [hc.joined]; exact Bool.false_ne_true)]
      exact ⟨hc, trivial⟩

/-- What is in an inner list of jobs is at its start, once the others are taken away. -/
theorem starts_filter {l : List Frame} {queue : List Addr} {cs : List Call} {d : Nat}
    (h : ∀ c ∈ cs, ∀ a ∈ own c.depth l, a ∈ own d l) :
    Starts l queue (queue.filter (· ∈ own d l)) cs := by
  intro c hc kept hk hmine
  have hall : kept.filter (· ∈ own d l) = kept :=
    List.filter_eq_self.mpr fun a ha => decide_eq_true (h c hc a (hmine a ha))
  rw [← hall]
  exact hk.filter _

private theorem Sound.join (hi : Sound s t) {v : Nat} {garbage : Nat → Option Addr}
    (hm : Meets s (.join v garbage)) (h : s.join v garbage = some u) : Sound u v := by
  have hi := hi.switch hm.1
  unfold Process.join at h
  split at h
  swap
  · cases h
  rename_i c outer hcalls
  obtain ⟨⟨hnot, -⟩, hu⟩ := Option.ite_none_right_eq_some.mp h
  cases hu
  have hcore := hi.core
  have hchain := hi.chain
  rw [hcalls] at hcore hchain
  obtain ⟨hwithin, hrest⟩ := hchain
  rw [if_neg (by rw [hnot]; exact Bool.false_ne_true)] at hrest
  obtain ⟨hpending, hchain⟩ := hrest
  obtain ⟨hdeep, hhere⟩ := hi.control v c outer hcalls
  have hlen := hhere hpending.cancelling
  have hown : own c.depth (s.jobs.threads v) = execs s.jobs v := own_here hlen
  have hheads : heads (c :: outer) = heads outer := by
    rw [heads, List.flatMap_cons, hpending.head, List.nil_append, heads]
  have hunderway : underway (c :: outer) = underway outer := List.filterMap_cons_none hpending.cancelling
  rw [hheads, hunderway] at hcore
  have hhidden : Core (s.jobs.firstJob ++ heads outer) (underway outer ++ s.freed) s.aborts
      { s.jobs with remains := 0, firstJob := [] } :=
    hcore.sublist (List.Sublist.refl _) (fun _ _ _ ha => ha) List.Pairwise.nil
  refine sound_set (p := { s with jobs := { s.jobs with remains := 0, firstJob := [] } }) ?_ ?_
    hi.records hi.control ⟨hdeep, hhere⟩ (fun w hw => .inl (hm.1 w hw).2) fun _ w hw => (hm.1 w hw).1
  · rw [← hunderway] at hhidden
    exact hhidden
  · refine ⟨hwithin, ?_⟩
    rw [if_pos rfl]
    refine ⟨[], ⟨List.nil_prefix, hpending.tail, fun a ha => absurd ha List.not_mem_nil, ?_, ?_, ?_, ?_⟩, ?_⟩
    · intro a ha
      rw [hown] at ha
      exact hcore.execLive v a ha
    · rw [hown]
      refine (hcore.ordered.filter _).imp_of_mem fun {b a} _ ha hba hg => ?_
      exact (hba hg).2 v (of_decide_eq_true (List.mem_filter.mp ha).2)
    · intro a ha hs
      rw [← hlen, oldest_length] at hs
      rw [hown]
      exact hm.2 a ha hs
    · intro n hn
      obtain ⟨a, ha, hserial⟩ := List.mem_map.mp hn
      obtain ⟨hqueue, hexec⟩ := List.mem_filter.mp ha
      refine .inr ⟨a, hqueue, ?_, hserial⟩
      rw [hown]
      exact of_decide_eq_true hexec
    · refine hchain.steady (fun c' hc' => ⟨Nat.le_trans (hwithin c' hc').2.2 hdeep, rfl⟩)
        (fun _ _ => ⟨rfl, rfl⟩) (starts_filter fun c' hc' a ha => ?_)
      rw [hown]
      exact own_running ha

/-- The jobs kept so far end with the one that the next is linked after. -/
theorem relink_kept {s : State} {kept : List Addr} {tail : Option Addr} (hnodup : s.firstJob.Nodup)
    (hstart : kept <+: s.firstJob) (htail : tail = kept.getLast?) (job : Addr) :
    relink s tail job = { s with firstJob := kept ++ [job] } := by
  obtain ⟨extra, hqueue⟩ := hstart
  cases kept using List.reverseRecOn with
  | nil =>
    subst htail
    rfl
  | append_singleton kept last =>
    rw [List.getLast?_concat] at htail
    subst htail
    rw [List.append_assoc, List.singleton_append] at hqueue
    rw [← hqueue] at hnodup
    have hnot : last ∉ kept := fun hmem =>
      (List.nodup_middle.mp hnodup).notMem (List.mem_append_left _ hmem)
    have hbefore : s.firstJob.takeWhile (· ≠ last) = kept := by
      rw [← hqueue, List.takeWhile_append_of_pos fun a ha => decide_eq_true (ne_of_mem_of_not_mem ha hnot)]
      rw [List.takeWhile_cons_of_neg (by simp), List.append_nil]
    have hmem : last ∈ s.firstJob := by
      rw [← hqueue]
      exact List.mem_append_right _ List.mem_cons_self
    rw [relink, linkAfter, if_pos hmem, hbefore, List.append_assoc, List.singleton_append]

private theorem filter_own {d : Nat} {l : List Frame} {job : Addr} (h : job ∈ own d l) (rest : List Addr) :
    (job :: rest).filter (· ∈ own d l) = job :: rest.filter (· ∈ own d l) :=
  List.filter_cons_of_pos (decide_eq_true h)

private theorem filter_not_own {d : Nat} {l : List Frame} {job : Addr} (h : job ∉ own d l) (rest : List Addr) :
    (job :: rest).filter (· ∈ own d l) = rest.filter (· ∈ own d l) :=
  List.filter_cons_of_neg fun hmem => h (of_decide_eq_true hmem)

/-- A job that a frame of the caller executes is linked at the end of the queue. -/
theorem Stands.keep {s v : State} {aborts : List Nat} {l : List Frame} {queue rest kept : List Addr}
    {c : Call} {job : Addr} {outer : List Call} (h : Stands s aborts l queue c outer kept)
    (hhead : c.head = job :: rest) (hown : job ∈ own c.depth l) (hrecs : v.recs = s.recs) :
    Stands v aborts l (kept ++ [job]) { c with head := rest, tail := some job } outer (kept ++ [job]) where
  start := List.prefix_rfl
  tail := List.getLast?_concat.symm
  mine a ha := by
    rcases List.mem_append.mp ha with ha | ha
    · exact h.mine a ha
    · exact List.mem_singleton.mp ha ▸ hown
  found a ha := by
    have hfound := h.found a ha
    rwa [hhead, List.append_cons] at hfound
  apart := by
    have hapart := h.apart
    rw [hhead, filter_own hown, List.append_cons] at hapart
    exact hapart.imp fun {b a} hno hg => hno (by rwa [SameGroup, hrecs] at hg)
  honest a ha := h.honest a (hhead ▸ List.mem_cons_of_mem _ ha)
  told n hn := by
    refine (h.told n hn).imp_right ?_
    rintro ⟨a, ha, hnot, hserial⟩
    rw [hhead] at ha
    have hne : a ≠ job := fun he => hnot (he ▸ hown)
    exact ⟨a, (List.mem_cons.mp ha).resolve_left hne, hnot, by rw [serialOf, hrecs]; exact hserial⟩

/-- A job that no frame of the caller executes is told to be aborted. -/
theorem Stands.abort {s : State} {aborts : List Nat} {l : List Frame} {queue rest kept : List Addr}
    {c : Call} {job : Addr} {outer : List Call} (h : Stands s aborts l queue c outer kept)
    (hhead : c.head = job :: rest) (hnot : job ∉ own c.depth l) :
    Stands s (aborts ++ [serialOf s job]) l queue { c with head := rest, cancelling := some job } outer
      kept where
  start := h.start
  tail := h.tail
  mine := h.mine
  found a ha := by
    have hfound := h.found a ha
    have hne : a ≠ job := fun he => hnot (he ▸ ha)
    rw [hhead, List.append_assoc] at hfound
    rw [List.append_assoc]
    rcases List.mem_append.mp hfound with hmem | hmem
    · exact List.mem_append_left _ hmem
    · exact List.mem_append_right _ ((List.mem_cons.mp hmem).resolve_left hne)
  apart := by
    have hapart := h.apart
    rwa [hhead, filter_not_own hnot] at hapart
  honest a ha := h.honest a (hhead ▸ List.mem_cons_of_mem _ ha)
  told n hn := by
    rcases h.told n hn with hmem | ⟨a, ha, hown, hserial⟩
    · exact .inl (List.mem_append_left _ hmem)
    · rw [hhead] at ha
      rcases List.mem_cons.mp ha with rfl | ha
      · exact .inl (List.mem_append_right _ (hserial ▸ List.mem_singleton_self _))
      · exact .inr ⟨a, ha, hown, hserial⟩

/-- Only the thread that goes through the queue has calls that wait for no other thread. -/
theorem Sound.not_pending_here (hi : Sound s t) {v : Nat} {c : Call} {outer : List Call}
    (hcalls : s.calls v = c :: outer) (hc : ¬Pending c) : v = t := by
  by_contra hv
  rcases hi.others v hv with hnil | ⟨c', hcalls', hpending⟩
  · rw [hcalls] at hnil
    cases hnil
  · rw [hcalls] at hcalls'
    cases hcalls'
    exact hc hpending

private theorem Sound.joined_here (hi : Sound s t) {v : Nat} {c : Call} {outer : List Call}
    (hcalls : s.calls v = c :: outer) (hjoined : c.joined = true) : v = t :=
  hi.not_pending_here hcalls fun hc =>
    absurd (hc.joined.symm.trans hjoined) Bool.false_ne_true

/-- What a call that goes through the queue keeps of it. -/
theorem Sound.standing (hi : Sound s t) {c : Call} {outer : List Call} (hcalls : s.calls t = c :: outer)
    (hjoined : c.joined = true) : Within c outer ∧ ∃ kept,
      Stands s.jobs s.aborts (s.jobs.threads t) s.jobs.firstJob c outer kept ∧
      Chain s.jobs s.aborts (s.jobs.threads t)
        (kept ++ c.head.filter (· ∈ own c.depth (s.jobs.threads t))) outer := by
  have hchain := hi.chain
  rw [hcalls] at hchain
  obtain ⟨hwithin, hrest⟩ := hchain
  rw [if_pos hjoined] at hrest
  exact ⟨hwithin, hrest⟩

private theorem Sound.next (hi : Sound s t) {v : Nat} (h : s.next v = some u) : Sound u t := by
  unfold Process.next at h
  split at h
  swap
  · cases h
  rename_i c outer hcalls
  split at h
  swap
  · cases h
  rename_i job rest hhead
  obtain ⟨⟨hjoined, hnone⟩, h⟩ := Option.ite_none_right_eq_some.mp h
  have hv := hi.joined_here hcalls hjoined
  subst hv
  have hcore := hi.core
  rw [hcalls] at hcore
  obtain ⟨hwithin, kept, hstands, hchain⟩ := hi.standing hcalls hjoined
  obtain ⟨hdeep, hhere⟩ := hi.control v c outer hcalls
  have hlen := hhere hnone
  have hown : own c.depth (s.jobs.threads v) = execs s.jobs v := own_here hlen
  have halone := hi.alone ⟨c, hcalls ▸ List.mem_cons_self, hjoined⟩
  have hidle : ∀ w ≠ v, execs s.jobs w = [] := fun w hw => by rw [execs, halone w hw]; rfl
  have hheads : heads (c :: outer) = job :: (rest ++ heads outer) := by
    rw [heads, List.flatMap_cons, hhead, heads, List.cons_append]
  have hunderway : underway (c :: outer) = underway outer := List.filterMap_cons_none hnone
  rw [hheads, hunderway] at hcore
  split_ifs at h with hstacked
  · cases h
    have hjob : job ∈ own c.depth (s.jobs.threads v) := by
      refine hstands.honest job (hhead ▸ List.mem_cons_self) ?_
      rwa [← hlen, oldest_length]
    have hqueue : s.jobs.firstJob.Nodup :=
      (List.nodup_append.mp (List.nodup_append.mp hcore.nodup).1).1
    rw [relink_kept hqueue hstands.start hstands.tail]
    have hkept : kept ++ [job] ++ (rest ++ heads outer) = kept ++ job :: (rest ++ heads outer) := by
      rw [List.append_assoc, List.singleton_append]
    have hstands' := hstands.keep hhead hjob
      (v := { s.jobs with firstJob := kept ++ [job] }) rfl
    refine sound_set (p := { s with jobs := { s.jobs with firstJob := kept ++ [job] } }) ?_ ?_
      hi.records hi.control ⟨hdeep, hhere⟩ hi.others fun _ => halone
    · rw [show heads ({ c with head := rest, tail := some job } :: outer) = rest ++ heads outer from rfl,
        show underway ({ c with head := rest, tail := some job } :: outer) = underway outer from
          List.filterMap_cons_none hnone]
      refine hcore.sublist ?_ (fun w a ha _ => ?_) ?_
      · rw [hkept]
        exact hstands.start.sublist.append_right _
      · have hw : w = v := by
          by_contra hw
          rw [hidle w hw] at ha
          cases ha
        subst hw
        rw [← hown] at ha
        have hfound := hstands.found a ha
        rw [hhead, List.append_assoc] at hfound
        rwa [hkept]
      · have hapart := hstands'.apart
        refine (List.pairwise_append.mp hapart).1.imp fun {b a} hno hg => absurd hg hno
    · refine ⟨hwithin, ?_⟩
      rw [if_pos hjoined]
      refine ⟨kept ++ [job], hstands', ?_⟩
      rw [hhead, filter_own hjob, List.append_cons] at hchain
      exact hchain.steady (fun c' hc' => ⟨Nat.le_trans (hwithin c' hc').2.2 hdeep, rfl⟩)
        (fun _ _ => ⟨rfl, rfl⟩) fun _ _ _ hk _ => hk
  · cases h
    have hjob : job ∉ own c.depth (s.jobs.threads v) := fun hmem =>
      hstacked (stacked_of_running c.garbage (hi.records v) (own_running hmem))
    refine sound_set (p := { s with aborts := s.aborts ++ [serialOf s.jobs job] }) ?_ ?_
      hi.records hi.control ⟨hdeep, fun hc => absurd hc (Option.some_ne_none job)⟩ hi.others
      fun _ => halone
    · refine hcore.abort fun w hmem => ?_
      by_cases hw : w = v
      · subst hw
        exact hjob (hown ▸ hmem)
      · rw [hidle w hw] at hmem
        cases hmem
    · refine ⟨hwithin, ?_⟩
      rw [if_pos hjoined]
      refine ⟨kept, hstands.abort hhead hjob, ?_⟩
      rw [hhead, filter_not_own hjob] at hchain
      exact hchain.told

private theorem Sound.cancelled (hi : Sound s t) {v : Nat} (h : s.cancelled v = some u) : Sound u t := by
  unfold Process.cancelled at h
  split at h
  swap
  · cases h
  rename_i c outer hcalls
  split at h
  swap
  · cases h
  rename_i job hcancelling
  obtain ⟨hlen, hu⟩ := Option.ite_none_right_eq_some.mp h
  cases hu
  have hv := hi.not_pending_here hcalls fun hc =>
    absurd (hcancelling.symm.trans hc.cancelling) (Option.some_ne_none job)
  subst hv
  have hcore := hi.core
  have hchain := hi.chain
  rw [hcalls] at hcore hchain
  have hjoined : c.joined = true := by
    by_contra hnot
    have hpending := hchain.2
    rw [if_neg hnot] at hpending
    exact absurd (hcancelling.symm.trans hpending.1.cancelling) (Option.some_ne_none job)
  obtain ⟨hwithin, kept, hstands, hchain⟩ := hi.standing hcalls hjoined
  have hunderway : underway (c :: outer) = job :: underway outer := List.filterMap_cons_some hcancelling
  rw [hunderway] at hcore
  refine sound_set (p := { s with freed := job :: s.freed }) ?_ ?_ hi.records hi.control
    ⟨Nat.le_of_eq hlen.symm, fun _ => hlen⟩ hi.others
    fun _ => hi.alone ⟨c, hcalls ▸ List.mem_cons_self, hjoined⟩
  · have hperm : (s.jobs.firstJob ++ heads (c :: outer) ++ (job :: underway outer ++ s.freed ++
        (s.jobs.freeJobs ++ s.jobs.mallocs))).Perm (s.jobs.firstJob ++ heads (c :: outer) ++
        (underway outer ++ job :: s.freed ++ (s.jobs.freeJobs ++ s.jobs.mallocs))) :=
      (List.perm_middle.symm.append_right _).append_left _
    exact hcore.frame (fun _ _ => rfl) rfl (hperm.nodup_iff.mp hcore.nodup)
      (fun a ha => hcore.alloc a (hperm.mem_iff.mpr ha)) rfl rfl
  · refine ⟨hwithin, ?_⟩
    rw [if_pos hjoined]
    exact ⟨kept, { hstands with }, hchain⟩

private theorem Sound.leave (hi : Sound s t) {v : Nat} (h : s.leave v = some u) : Sound u t := by
  unfold Process.leave at h
  split at h
  swap
  · cases h
  rename_i c outer hcalls
  obtain ⟨⟨hjoined, hhead, hnone⟩, hu⟩ := Option.ite_none_right_eq_some.mp h
  cases hu
  have hv := hi.joined_here hcalls hjoined
  subst hv
  have hcore := hi.core
  rw [hcalls] at hcore
  obtain ⟨hwithin, kept, hstands, hchain⟩ := hi.standing hcalls hjoined
  have hheads : heads (c :: outer) = heads outer := by
    rw [heads, List.flatMap_cons, hhead, List.nil_append, heads]
  have hunderway : underway (c :: outer) = underway outer := List.filterMap_cons_none hnone
  rw [hheads, hunderway] at hcore
  rw [hhead, List.filter_nil, List.append_nil] at hchain
  have hdeep := (hi.control v c outer hcalls).1
  refine ⟨?_, ?_, hi.records, control_set hi.control fun c' outer' heq => ?_, fun w hw => ?_, ?_⟩
  · rw [setCalls_self]
    exact hcore
  · rw [setCalls_self]
    exact hchain.steady (fun c' hc' => ⟨Nat.le_trans (hwithin c' hc').2.2 hdeep, rfl⟩)
      (fun _ _ => ⟨rfl, rfl⟩) fun _ _ _ hk _ => hk.trans hstands.start
  · subst heq
    obtain ⟨-, hcancelling, hle⟩ := hwithin c' List.mem_cons_self
    refine ⟨Nat.le_trans hle hdeep, fun hno => ?_⟩
    rw [hno] at hcancelling
    exact absurd hcancelling Bool.false_ne_true
  · rw [setCalls_of_ne hw]
    exact hi.others w hw
  · rw [setCalls_self]
    rintro ⟨c', hc', hj⟩
    exact hi.alone ⟨c', hcalls ▸ List.mem_cons_of_mem _ hc', hj⟩

private theorem sound_start (t : Nat) : Sound .start t :=
  ⟨core_init, trivial, fun _ _ hf => absurd hf List.not_mem_nil, fun _ _ _ h => (List.cons_ne_nil _ _ h.symm).elim,
    fun _ _ => .inl rfl, fun ⟨_, hc, _⟩ => absurd hc List.not_mem_nil⟩

private theorem sound_act (hi : ∃ t, Sound s t) {x : Act} (hm : Meets s x) (h : act s x = some u) :
    ∃ t, Sound u t := by
  obtain ⟨t, hi⟩ := hi
  cases x with
  | jobs x =>
    obtain ⟨hx, h⟩ := Option.ite_none_right_eq_some.mp h
    obtain ⟨v, hv, rfl⟩ := Option.map_eq_some_iff.mp h
    exact ⟨t, hi.jobs hm hx hv⟩
  | reuse job => exact ⟨t, hi.reuse h⟩
  | terminate v others => exact ⟨t, hi.terminate h⟩
  | join v garbage => exact ⟨v, hi.join hm h⟩
  | next v => exact ⟨t, hi.next h⟩
  | cancelled v => exact ⟨t, hi.cancelled h⟩
  | leave v => exact ⟨t, hi.leave h⟩

end sound

/-- When a call returns, the jobs that waited were aborted once and are not in the queue. The jobs
that the frames of the thread execute were not aborted, and they are in the queue, or in the list
of a call around this one. -/
structure Settled (s : Process) (t : Nat) (c : Call) (outer : List Call) : Prop where
  waiting : ∀ n ∈ c.waiting, s.aborts.count n = 1 ∧ n ∉ s.jobs.firstJob.map (serialOf s.jobs)
  kept : ∀ a ∈ execs s.jobs t, a ∈ s.jobs.firstJob ++ heads outer
  spared : ∀ a ∈ execs s.jobs t, serialOf s.jobs a ∉ s.aborts

def Settles (s : Process) : Act → Prop
  | .leave t => ∀ c outer, s.calls t = c :: outer → (s.leave t).isSome → Settled s t c outer
  | _ => True

private theorem Sound.settled {s : Process} {t : Nat} (hi : Sound s t) {v : Nat} {c : Call} {outer : List Call}
    (hcalls : s.calls v = c :: outer) (h : (s.leave v).isSome) : Settled s v c outer := by
  obtain ⟨u, hu⟩ := Option.isSome_iff_exists.mp h
  rw [Process.leave, hcalls] at hu
  obtain ⟨⟨hjoined, hhead, hnone⟩, -⟩ := Option.ite_none_right_eq_some.mp hu
  have hv := hi.joined_here hcalls hjoined
  subst hv
  have hcore := hi.core
  have hchain := hi.chain
  rw [hcalls] at hcore hchain
  have hrest := hchain.2
  rw [if_pos hjoined] at hrest
  obtain ⟨kept, hstands, -⟩ := hrest
  have hown : own c.depth (s.jobs.threads v) = execs s.jobs v :=
    own_here ((hi.control v c outer hcalls).2 hnone)
  obtain ⟨haborts, -, hdistinct⟩ := List.nodup_append.mp hcore.serials
  refine ⟨fun n hn => ?_, fun a ha => ?_, fun a ha hmem => ?_⟩
  · have hmem : n ∈ s.aborts := by
      rcases hstands.told n hn with hmem | ⟨a, ha, -⟩
      · exact hmem
      · rw [hhead] at ha
        cases ha
    refine ⟨List.count_eq_one_of_mem haborts hmem, fun hqueue => ?_⟩
    rw [List.map_append] at hdistinct
    exact hdistinct n hmem n (List.mem_append_left _ hqueue) rfl
  · rw [← hown] at ha
    have hfound := hstands.found a ha
    rw [hhead, List.append_nil] at hfound
    exact (hstands.start.sublist.append_right _).subset hfound
  · exact hdistinct _ hmem _ (List.mem_map_of_mem (hcore.execLive v a ha)) rfl

/-- In a run where no waiting job is recorded by a frame that does not execute it, each call of
jobs_terminate aborts the waiting jobs once and keeps the others. -/
theorem jobsTerminate_settles (xs : List Act) (h : Along act Meets .start xs) :
    Along act Settles .start xs := by
  refine along_keeps (I := fun s => ∃ t, Sound s t) (fun s x hi _ => ?_)
    (fun s x u hi hm hu => sound_act hi hm hu) ⟨0, sound_start 0⟩ h
  obtain ⟨t, hi⟩ := hi
  cases x with
  | leave v => exact fun c outer hcalls => hi.settled hcalls
  | _ => trivial

/-- A job waits while another one is executed. -/
def terminating : List Act :=
  [.jobs .malloc, .jobs (.jobsStart 1 0 10), .jobs (.startJob 0 (some 0) 7), .jobs (.take 0),
    .jobs .malloc, .jobs (.jobsQueue (some 1) none 0 8 true), .terminate 0 [],
    .join 0 fun _ => none, .next 0, .next 0, .cancelled 0, .leave 0]

/-- A job waits in the record of the job that the frame has executed. -/
def recycling : List Act :=
  [.jobs .malloc, .jobs (.jobsStart 1 0 10), .jobs (.startJob 0 (some 0) 7), .jobs (.take 0),
    .jobs (.release 0), .jobs (.idle 0 true), .jobs (.jobsQueue none none 0 8 true), .terminate 0 [],
    .join 0 fun _ => none, .next 0]

theorem jobsTerminate_settles_terminating :
    Along act Meets .start terminating ∧ Along act Settles .start terminating := by
  have h : Along act Meets .start terminating := by
    refine along_cons rfl (fun u hu => by cases hu) ?_
    refine along_cons rfl (fun u hu => by cases hu) ?_
    refine along_cons rfl (fun u _ t _ c hc => by cases hc) ?_
    refine along_cons rfl (fun u hu => by cases hu) ?_
    refine along_cons rfl (fun u hu => by cases hu) ?_
    refine along_cons rfl (fun u hu => by cases hu) ?_
    refine along_cons rfl trivial ?_
    refine along_cons rfl ⟨fun u hu => ?_, by decide⟩ ?_
    · cases u with
      | zero => exact absurd rfl hu
      | succ n => exact ⟨rfl, rfl⟩
    refine along_cons rfl trivial ?_
    refine along_cons rfl trivial ?_
    refine along_cons rfl trivial ?_
    exact along_cons rfl trivial trivial
  exact ⟨h, jobsTerminate_settles terminating h⟩

theorem jobsTerminate_recycled : ¬∀ xs, Along act Settles .start xs := by
  intro h
  have hleave := along_at (h (recycling ++ [.leave 0])) rfl
  have hsettled := hleave _ _ rfl rfl
  exact absurd (hsettled.waiting 1 List.mem_cons_self).1 (by decide)

end AfbBinder.Jobs
